import BlockScript.Proofs.ExpressionReading
import BlockScript.Proofs.FoldMeaning
import BlockScript.Proofs.Numbering
import Mathlib.Algebra.Group.Nat.Defs

/-!
# Operators that stand for others keep their meaning

What a phrase of the grammar means is said by the meanings of its parts: at most is less or equal,
unequal is not equal, and a minus sign negates a number. The trees that the parser builds have other
operators, copies of operands and literals that take up their signs, and evaluate to the same. A
loop that runs while a condition holds becomes one that runs until its negation does.
-/

namespace BlockScript

/-! ### Signs -/

section Sign

open Float.Model Float.Model.UnpackedFloat

variable {m : Nat} {e : Int}

private theorem log2_pow_mul (hm : 0 < m) (k : Nat) : (2 ^ k * m).log2 = m.log2 + k := by
  induction k with
  | zero => simp
  | succ k ih =>
    have hpos : 0 < 2 ^ k * m := Nat.mul_pos (Nat.two_pow_pos k) hm
    rw [Nat.pow_succ, Nat.mul_comm _ 2, Nat.mul_assoc, Nat.log2_two_mul (by omega), ih,
      Nat.add_assoc]

private theorem shiftRight_pow (m k : Nat) :
    (⟨2 ^ k * m, false, false⟩ : ExtendedMantissa) >>> k = ⟨m, false, false⟩ := by
  change k.repeat ExtendedMantissa.shiftRightOne _ = _
  induction k generalizing m with
  | zero => simp [Nat.repeat]
  | succ k ih =>
    rw [Nat.repeat, Nat.pow_succ, Nat.mul_assoc, ih]
    simp [ExtendedMantissa.shiftRightOne]

private theorem targetExponent_eq :
    Format.binary64.targetExponent (totalExponent m e) = max (m.log2 + e - 52) (-1074) := by
  have hmin : Format.binary64.minExponent = -1074 := by decide
  have hbits : Format.binary64.mantissaBits = 53 := rfl
  rw [Format.targetExponent, totalExponent, hmin, hbits]
  omega

private theorem targetExponent_unpack {b : BitVec 64} {s : UnpackedFloat.Sign} {hm : 0 < m}
    (h : UnpackedFloat.unpack .binary64 b = .finite s m e hm) :
    Format.binary64.targetExponent (totalExponent m e) = e := by
  have hbias : Format.binary64.exponentBias = 1023 := by decide
  rw [targetExponent_eq]
  unfold UnpackedFloat.unpack at h
  dsimp only at h
  rcases ite_eq_iff.mp h with ⟨-, h⟩ | ⟨-, h⟩
  · rcases ite_eq_iff.mp h with ⟨-, h⟩ | ⟨-, h⟩ <;> cases h
  · rcases ite_eq_iff.mp h with ⟨hexponent, h⟩ | ⟨hexponent, h⟩
    · rcases dite_eq_iff.mp h with ⟨_, h⟩ | ⟨_, h⟩
      · cases h
      · cases h
        have hlog := (Nat.log2_lt (Nat.pos_iff_ne_zero.mp hm)).mpr (BitVec.isLt _)
        rw [hexponent, hbias]
        simp only [BitVec.toNat_ofNat, Nat.zero_mod]
        omega
    · cases h
      have hpos := BitVec.toNat_pos_of_ne_zero hexponent
      have hlog (v : BitVec 52) : (1#1 ++ v).toNat.log2 = 52 := by
        have hlt := v.isLt
        have happend : (1#1 ++ v).toNat = 2 ^ 52 + v.toNat := by
          rw [BitVec.toNat_append, ← Nat.shiftLeft_add_eq_or_of_lt hlt]
          rfl
        rw [happend, Nat.log2_eq_iff (by omega)]
        omega
      rw [hlog, hbias]
      omega

private theorem roundWithAccuracy_pow (s : UnpackedFloat.Sign) (hm : 0 < m)
    (h : Format.binary64.targetExponent (totalExponent m e) = e) :
    roundWithAccuracy .binary64 s (2 ^ 52 * m) (-52 + e) .exact = .finite s m e hm := by
  have hshift (k : Nat) :
      shiftToTargetExponent .binary64 (2 ^ k * m) (-k + e) .exact = (⟨m, false, false⟩, e) := by
    have htotal : totalExponent (2 ^ k * m) (-k + e) = totalExponent m e := by
      rw [totalExponent, totalExponent, log2_pow_mul hm]
      omega
    rw [shiftToTargetExponent, htotal, h, shiftToExponent, show (e - (-k + e)).toNat = k by omega]
    exact Prod.ext (shiftRight_pow m k) (by dsimp only; omega)
  have hagain := hshift 0
  rw [Nat.pow_zero, Nat.one_mul, show -((0 : Nat) : Int) + e = e by omega] at hagain
  unfold roundWithAccuracy
  rw [show (-52 + e : Int) = -((52 : Nat) : Int) + e from rfl, hshift 52]
  dsimp only [ExtendedMantissa.roundedMantissa, ExtendedMantissa.accuracy,
    Accuracy.roundToNearestEven]
  rw [hagain]
  exact dif_neg (Nat.pos_iff_ne_zero.mp hm)

private theorem minusOne_mul (x : Float) : -Float.ofScientific 1 false 0 * x = -x := by
  have hone : (-Float.ofScientific 1 false 0).toModel.unpack = .finite .negative (2 ^ 52) (-52)
    (by decide) := rfl
  have hproduct :
      UnpackedFloat.mul .binary64 (.finite .negative (2 ^ 52) (-52) (by decide)) x.toModel.unpack =
      x.toModel.unpack.neg := by
    cases hx : x.toModel.unpack with
    | notANumber => rfl
    | infinity s => cases s <;> rfl
    | zero s => cases s <;> rfl
    | finite s m e hm =>
      have hround := roundWithAccuracy_pow (.negative * s) hm (targetExponent_unpack hx)
      cases s <;> exact hround
  change Float.ofModel
    (.pack (.mul .binary64 (-Float.ofScientific 1 false 0).toModel.unpack x.toModel.unpack)) = _
  rw [hone, hproduct]
  rfl

end Sign

/-! ### Phrases -/

open Result

/-- The binary operators of a level, with what they make of the results of their operands. -/
def Level.operator? : Level → Token.Kind → Option (Result → Result → Option Result)
  | .disjunction, .keyword .orWord => some (binary? .or)
  | .conjunction, .keyword .andWord => some (binary? .and)
  | .equality, .sign .equal => some (binary? .eq)
  | .equality, .sign .notEqual => some fun l r => (binary? .eq l r).bind not?
  | .comparison, .sign .less => some (binary? .lt)
  | .comparison, .sign .greater => some (binary? .gt)
  | .comparison, .sign .lessEq => some (orEqual .lt)
  | .comparison, .sign .greaterEq => some (orEqual .gt)
  | .term, .sign .plus => some (binary? .add)
  | .term, .sign .minus => some (binary? .sub)
  | .factor, .sign .star => some (binary? .mul)
  | .factor, .sign .slash => some (binary? .div)
  | .factor, .sign .percent => some (binary? .mod)
  | _, _ => none
where
  /-- The comparison holds, or the results are equal. -/
  orEqual (op : BinaryOp) (l r : Result) : Option Result :=
    (binary? op l r).bind fun strict => (binary? .eq l r).bind (binary? .or strict)

/-- What a phrase evaluates to, where its names have values. -/
abbrev Meaning := Environment → Option Result

/-- The number minus one. -/
def minusOne : Result := .value (.number (-Float.ofScientific 1 false 0))

mutual

/-- The tokens of a phrase of a level, and what the phrase means. -/
inductive Means : Level → List Token.Kind → Meaning → Prop where
  | operand {level operand kinds m} :
    level.operand? = some operand → Means operand kinds m → Means level kinds m
  | binary {level operand kind f lefts rights l r} : level.operand? = some operand →
      level.operator? kind = some f → Means level lefts l → Means operand rights r →
      Means level (lefts ++ kind :: rights) fun env => (l env).bind fun x => (r env).bind (f x)
  | not {kinds m} : Means .unary kinds m → Means .unary (.keyword .notWord :: kinds) fun env =>
    (m env).bind not?
  /-- A minus sign before a number. -/
  | negative (n : Float) :
    Means .unary [.sign .minus, .literal (.number n)] fun _ => some (.value (.number (-n)))
  /-- A minus sign before anything. -/
  | minus {kinds m} : Means .unary kinds m →
      Means .unary (.sign .minus :: kinds) fun env => (m env).bind (binary? .mul minusOne)
  | plain {kinds m} : Means .primary kinds m → Means .unary kinds m
  | literal (value : Value) : Means .primary [.literal value] fun _ => some (.value value)
  | name {kinds name} : DottedName kinds name → Means .primary kinds fun env => env.names name
  | emptyCall {kinds name} : DottedName kinds name →
      Means .primary (kinds ++ [.sign .leftParen, .sign .rightParen]) fun env => env.call name []
  | call {kinds name more ms} : DottedName kinds name → MeansAll more ms →
      Means .primary (kinds ++ .sign .leftParen :: more ++ [.sign .rightParen]) fun env =>
        (ms env).bind (env.call name)
  | cast {word target kinds m} : word.type? = some target → Means .disjunction kinds m →
      Means .primary (.keyword word :: .sign .leftParen :: kinds ++ [.sign .rightParen]) fun env =>
        (m env).bind (cast? env.pictures target)
  | emptyList : Means .primary [.sign .leftBracket, .sign .rightBracket] fun _ => some (.list [])
  | list {kinds ms} : MeansAll kinds ms →
      Means .primary (.sign .leftBracket :: kinds ++ [.sign .rightBracket]) fun env =>
      (ms env).map .list
  | listWithComma {kinds ms} : MeansAll kinds ms →
      Means .primary (.sign .leftBracket :: kinds ++ [.sign .comma, .sign .rightBracket]) fun env =>
        (ms env).map .list
  | group {kinds m} : Means .disjunction kinds m →
      Means .primary (.sign .leftParen :: kinds ++ [.sign .rightParen]) m

/-- The tokens of one or more phrases with commas between them, and what they mean. -/
inductive MeansAll : List Token.Kind → (Environment → Option (List Result)) → Prop where
  | single {kinds m} : Means .disjunction kinds m → MeansAll kinds fun env => (m env).map ([·])
  | more {kinds rest m ms} : Means .disjunction kinds m → MeansAll rest ms →
      MeansAll (kinds ++ .sign .comma :: rest) fun env => (m env).bind fun x =>
      (ms env).map (x :: ·)

end

namespace Expr

private theorem eval_opposite (env : Environment) (e : Expr) :
    e.opposite.eval env = (e.eval env).bind (binary? .mul minusOne) := by
  unfold opposite
  split
  · simp [eval, minusOne, binary?, BinaryOp.eval?, minusOne_mul]
  · simp [operation, minusOne, eval]

mutual

private theorem eval_retag (f : Tag → Tag) (env : Environment) :
    ∀ e : Expr, (e.retag f).eval env = e.eval env
  | .ident .. | .literal .. => by rw [retag, eval, eval]
  | .call _ _ args | .list _ args => by rw [retag, eval, eval, evalAll_retagAll f env args]
  | .cast _ _ operand | .not _ operand | .group _ operand => by
    rw [retag, eval, eval, eval_retag f env operand]
  | .binary _ _ left right => by
    rw [retag, eval, eval, eval_retag f env left, eval_retag f env right]

private theorem evalAll_retagAll (f : Tag → Tag) (env : Environment) :
    ∀ es : List Expr, evalAll env (retagAll f es) = evalAll env es
  | [] => rfl
  | e :: rest => by rw [retagAll, evalAll, evalAll, eval_retag f env e, evalAll_retagAll f env rest]

end

private theorem eval_inverted {env : Environment} {e : Expr} {b : Bool} (next : Nat)
    (h : e.eval env = some (.value (.boolean b))) :
    (e.inverted next).1.eval env = some (.value (.boolean !b)) := by
  fun_induction inverted next e with
  | case1 tag operand =>
    rw [eval] at h
    obtain ⟨result, hoperand, hnot⟩ := Option.bind_eq_some_iff.mp h
    rw [hoperand]
    unfold not? at hnot
    split at hnot <;> cases hnot
    rw [Bool.not_not]
  | case2 tag inner _ _ _ ih => exact ih (by rwa [eval] at h)
  | case3 => rw [eval, h]; rfl
  | case4 => rw [eval, h]; rfl

end Expr

private theorem Level.exists_operator {level : Level} {kind : Token.Kind}
    {f : Result → Result → Option Result} (h : level.operator? kind = some f) :
    ∃ make, Operator level kind make ∧ ∀ env a b, (make a b).eval env = (a.eval env).bind fun x =>
      (b.eval env).bind (f x) := by
  unfold operator? at h
  split at h <;> cases h
  all_goals
    refine ⟨_, by constructor, fun env a b => ?_⟩
    cases ha : a.eval env <;> cases hb : b.eval env
    all_goals simp [Expr.operation, Expr.negation, Expr.eval, operator?.orEqual, ha, hb]

private theorem Means.exists_derives {level : Level} {kinds : List Token.Kind}
    {m : Environment → Option Result} (h : Means level kinds m) :
    ∃ e, Derives level kinds e ∧ ∀ env, e.eval env = m env := by
  induction h using @Means.rec _ fun kinds ms _ =>
    ∃ es, Enumerates kinds es ∧ ∀ env, Expr.evalAll env es = ms env with
  | operand hoperand _ ih =>
    obtain ⟨e, hder, heval⟩ := ih
    exact ⟨e, .operand hoperand hder, heval⟩
  | binary hoperand hop _ _ ihl ihr =>
    obtain ⟨a, hleft, ha⟩ := ihl
    obtain ⟨b, hright, hb⟩ := ihr
    obtain ⟨make, hmake, heval⟩ := Level.exists_operator hop
    exact ⟨make a b, .binary hoperand hmake hleft hright, fun env => by rw [heval, ha, hb]⟩
  | not _ ih =>
    obtain ⟨e, hder, heval⟩ := ih
    exact ⟨.negation e, .not hder, fun env => by rw [Expr.negation, Expr.eval, heval]⟩
  | negative n =>
    exact ⟨_, .minus (.plain (.literal _)), fun env => by rw [Expr.opposite, Expr.eval]⟩
  | minus _ ih =>
    obtain ⟨e, hder, heval⟩ := ih
    exact ⟨e.opposite, .minus hder, fun env => by rw [Expr.eval_opposite, heval]⟩
  | plain _ ih =>
    obtain ⟨e, hder, heval⟩ := ih
    exact ⟨e, .plain hder, heval⟩
  | literal value => exact ⟨_, .literal value, fun env => by rw [Expr.eval]⟩
  | name hname => exact ⟨_, .name hname, fun env => by rw [Expr.eval]⟩
  | emptyCall hname => exact ⟨_, .emptyCall hname, fun env => by rw [Expr.eval]; rfl⟩
  | call hname _ ih =>
    obtain ⟨es, henum, heval⟩ := ih
    exact ⟨_, .call hname henum, fun env => by rw [Expr.eval, heval]⟩
  | cast htype _ ih =>
    obtain ⟨e, hder, heval⟩ := ih
    exact ⟨_, .cast htype hder, fun env => by rw [Expr.eval, heval]⟩
  | emptyList => exact ⟨_, .emptyList, fun env => by rw [Expr.eval]; rfl⟩
  | list _ ih =>
    obtain ⟨es, henum, heval⟩ := ih
    exact ⟨_, .list henum, fun env => by rw [Expr.eval, heval]⟩
  | listWithComma _ ih =>
    obtain ⟨es, henum, heval⟩ := ih
    exact ⟨_, .listWithComma henum, fun env => by rw [Expr.eval, heval]⟩
  | group _ ih =>
    obtain ⟨e, hder, heval⟩ := ih
    exact ⟨_, .group hder, fun env => by rw [Expr.eval, heval]⟩
  | single _ ih =>
    obtain ⟨e, hder, heval⟩ := ih
    refine ⟨[e], .single hder, fun env => ?_⟩
    rw [Expr.evalAll, heval]
    exact Option.map_eq_bind.symm
  | more _ _ ih ihs =>
    obtain ⟨e, hder, heval⟩ := ih
    obtain ⟨es, henum, hevals⟩ := ihs
    exact ⟨e :: es, .more hder henum, fun env => by rw [Expr.evalAll, heval, hevals]⟩

/-- **The parser keeps meaning.** An expression that nothing goes on with is read into a tree that
evaluates to what it means. As the condition of a loop that runs while it holds, it becomes a
condition with the other truth value, until which the loop runs. -/
theorem Parser.expression_means {kinds : List Token.Kind} {m : Meaning}
    (h : Means .disjunction kinds m) {ts rest : List Token} (hts : ts.map (·.kind) = kinds)
    (hrest : ∀ t ∈ rest.head?, ¬t.kind.Continues) :
    (∀ c : Cursor, c.rest = ts ++ rest →
      ∃ e c', expression c = .ok e c' ∧ c'.rest = rest ∧ ∀ env, e.eval env = m env) ∧
    ∀ (depth : Nat) (word : Token) (c : Cursor), word.kind = .keyword .whileWord →
      c.rest = word :: (ts ++ rest) → ∃ condition span c', c'.rest = rest ∧
        statementAt (depth + 1) c =
          (do return Stmt.loop (.until condition) (← body (statementAt depth) c.indent) span) c' ∧
        ∀ env b, m env = some (.value (.boolean b)) →
          condition.eval env = some (.value (.boolean !b)) := by
  obtain ⟨tree, hder, heval⟩ := h.exists_derives
  rw [← hts] at hder
  have hread (c : Cursor) (hc : c.rest = ts ++ rest) :
      ∃ e c', expression c = .ok e c' ∧ c'.rest = rest ∧ ∀ env, e.eval env = m env := by
    obtain ⟨e, c', hrun, hrest', rfl⟩ := exists_run_expression hc hder hrest
    exact ⟨e, c', hrun, hrest', fun env => (Expr.eval_retag _ env e).symm.trans (heval env)⟩
  refine ⟨hread, fun depth word c hword hc => ?_⟩
  obtain ⟨e, c', hrun, hrest', heval'⟩ := hread c.advance (Cursor.advance_of_rest hc)
  refine ⟨(e.inverted c'.nextId).1, c.span.merge e.span,
    { c' with nextId := (e.inverted c'.nextId).2 }, hrest',
    ?_, fun env b hb => Expr.eval_inverted _ ((heval' env).trans hb)⟩
  rw [statementAt, run_get_bind, Cursor.kind?_of_rest hc, hword]
  change loopStatement _ _ c = _
  rw [loopStatement, run_get_bind, run_pass_bind, run_bind_of_ok (run_sees _), if_neg (by simp),
    run_bind_of_ok hrun]
  rfl

/-- The condition `not (a <= - -2)` before a colon: the negation is stripped, and the number takes
up both signs. -/
theorem Parser.expression_means_doubleNegative :
    let token (kind : Token.Kind) : Token := ⟨kind, "", .nowhere, 0, ""⟩
    let kinds : List Token.Kind :=
      [.keyword .notWord, .sign .leftParen, .name "a", .sign .lessEq, .sign .minus,
      .sign .minus, .literal (.number 2), .sign .rightParen]
    let c : Cursor :=
      ⟨token (.keyword .whileWord) :: (kinds.map token ++ [token (.sign .colon)]), .nowhere,
        0, 0, []⟩
    let env : Environment :=
      ⟨fun _ => some (.value (.number 5)), fun _ _ => none, fun path => .error ⟨path, .missing⟩⟩
    ∃ condition span c', c'.rest = [token (.sign .colon)] ∧
      statementAt 1 c =
      (do return Stmt.loop (.until condition) (← body (statementAt 0) c.indent) span) c' ∧
      condition.eval env = some (.value (.boolean false)) := by
  intro token kinds c env
  have hbound : Means .term _ _ := .operand rfl (.operand rfl (.minus (.negative 2)))
  have hname : Means .comparison _ _ :=
    .operand rfl (.operand rfl (.operand rfl (.plain (.name (.single "a")))))
  have horder : Means .comparison (_ ++ .sign .lessEq :: _) _ := .binary rfl rfl hname hbound
  have hnot : Means .disjunction kinds _ := .operand rfl (.operand rfl (.operand rfl (.operand rfl
    (.operand rfl
    (.operand rfl (.not (.plain (.group (.operand rfl (.operand rfl (.operand rfl horder)))))))))))
  have hcolon : ∀ t ∈ [token (.sign .colon)].head?, ¬t.kind.Continues := by
    rintro t ⟨⟩
    exact not_continues_sign (by decide) _ rfl
  obtain ⟨condition, span, c', hc', hrun, heval⟩ :=
    (expression_means hnot rfl hcolon).2 0 _ c rfl rfl
  exact ⟨condition, span, c', hc', hrun, heval env true rfl⟩

end BlockScript
