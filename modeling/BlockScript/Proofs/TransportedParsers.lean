import BlockScript.Proofs.Transport

/-!
# Parsers carry over

One lemma for each parser of expressions: from an open cursor its run carries over, and where it
succeeds the cursor is open again. Parsers that take steps are given as many more of them after the
change as there are tokens that follow; they are enough if they are at least as many as the tokens
that are left.
-/

namespace BlockScript

section

open List BlockScript.Parser
open BlockScript.Expr (retag)

variable {kind : Token.Kind} {c c₁ : Cursor} {sign : Sign}

private theorem Parser.run_expectName (what : Expectation) (h : c.kind? = some (.name name)) :
    expectName what c = .ok (name, c.span) c.advance := by
  rw [expectName, run_get_bind, h]
  rfl

namespace Transport

variable {α β γ δ : Type} {T : Transport} {c : Cursor} {post : Cursor → Prop}

/-! ### Numbering -/

mutual

private theorem copy_retag (next : Nat) : ∀ e : Expr, (e.retag T.tag).copy (next + T.shift) =
    ((e.copy next).1.retag T.tag, (e.copy next).2 + T.shift)
  | .ident tag name | .literal tag value => by
    simp [Expr.copy, retag, Transport.tag, Nat.add_right_comm]
  | .call tag callee args | .list tag args => by
    have hargs := copyAll_retag next args
    simp [Expr.copy, retag, hargs, Transport.tag, Nat.add_right_comm]
  | .cast tag target operand | .not tag operand | .group tag operand => by
    simp [Expr.copy, retag, copy_retag next operand, Transport.tag, Nat.add_right_comm]
  | .binary tag op left right => by
    simp [Expr.copy, retag, copy_retag next left, copy_retag _ right, Transport.tag,
      Nat.add_right_comm]

private theorem copyAll_retag (next : Nat) :
    ∀ es : List Expr, Expr.copyAll (next + T.shift) (es.map (retag T.tag)) =
      ((Expr.copyAll next es).1.map (retag T.tag), (Expr.copyAll next es).2 + T.shift)
  | [] => rfl
  | e :: rest => by simp [Expr.copyAll, copy_retag next e, copyAll_retag _ rest]

end

private theorem join_retag (id : Nat) (op : BinaryOp) (left right : Expr) :
    Expr.join (id + T.shift) op (left.retag T.tag) (right.retag T.tag) =
      (Expr.join id op left right).retag T.tag := by
  simp [Expr.join, retag, Transport.tag, T.span_merge]

private theorem build_retag (join : Join) (next : Nat) (left right : Expr) :
    join.build (next + T.shift) (left.retag T.tag) (right.retag T.tag) =
      ((join.build next left right).1.retag T.tag, (join.build next left right).2 + T.shift) := by
  have hadd (n k : Nat) : n + T.shift + k = n + k + T.shift := Nat.add_right_comm n T.shift k
  cases join with
  | plain op => simp only [Join.build, join_retag, hadd]
  | orEqual op => simp only [Join.build, copy_retag, hadd, join_retag]
  | unequal =>
    simp only [Join.build, join_retag, span_retag, hadd, retag]
    rfl

private theorem negated_retag (next : Nat) (start : Span) (e : Expr) :
    (e.retag T.tag).negated (next + T.shift) (T.span start) =
      ((e.negated next start).1.retag T.tag, (e.negated next start).2 + T.shift) := by
  have hproduct (operand : Expr) (hoperand : operand.negated next start =
      (.join (next + 1) .mul (.literal ⟨next, start⟩ (.number (-Float.ofScientific 1 false 0)))
      operand, next + 2)) (hretag : (operand.retag T.tag).negated (next + T.shift)
      (T.span start) = (.join (next + T.shift + 1) .mul
          (.literal ⟨next + T.shift, T.span start⟩ (.number (-Float.ofScientific 1 false 0)))
          (operand.retag T.tag), next + T.shift + 2)) :
      (operand.retag T.tag).negated (next + T.shift) (T.span start) =
        ((operand.negated next start).1.retag T.tag, (operand.negated next start).2 + T.shift) := by
    rw [hoperand, hretag, Nat.add_right_comm next T.shift 1, Nat.add_right_comm next T.shift 2,
      ← join_retag]
    rfl
  cases e with
  | literal tag value =>
    cases value with
    | number n => simp [Expr.negated, retag, Transport.tag, T.span_merge]
    | _ => exact hproduct _ rfl rfl
  | _ => exact hproduct _ rfl rfl

private theorem ungrouped_retag : ∀ e : Expr, (e.retag T.tag).ungrouped = e.ungrouped.retag T.tag
  | .group tag inner => by simp only [retag, Expr.ungrouped, ungrouped_retag inner]
  | .ident _ _ | .literal _ _ | .call _ _ _ | .cast _ _ _ | .list _ _ | .not _ _
  | .binary _ _ _ _ => rfl

private theorem inverted_retag (next : Nat) :
    ∀ e : Expr, (e.retag T.tag).inverted (next + T.shift) =
      ((e.inverted next).1.retag T.tag, (e.inverted next).2 + T.shift)
  | .group tag inner => by
    have hinner := inverted_retag next inner
    have hadd : next + T.shift + 1 = next + 1 + T.shift := Nat.add_right_comm ..
    simp only [retag, Expr.inverted, ungrouped_retag]
    cases hbare : inner.ungrouped <;>
      simp only [retag, hinner, hadd, Transport.tag]
  | .not tag operand => rfl
  | .ident _ _ | .literal _ _ | .call _ _ _ | .cast _ _ _ | .list _ _ | .binary _ _ _ _ => by
    simp [retag, Expr.inverted, Expr.span, Expr.tag, Transport.tag, Nat.add_right_comm]

/-! ### Runs -/

/-- Whether the run of `q` from the changed cursor is the changed run of `p`, with results changed
by `f`. A success leaves the cursor with `post`, and a failure leaves it open. -/
def Carries (T : Transport) (c : Cursor) (post : Cursor → Prop) (f : α → β) (p : Parser α)
    (q : Parser β) : Prop :=
  Ends p c (fun a c' => q (T.cursor c) = .ok (f a) (T.cursor c') ∧ c'.rest.length ≤ c.rest.length ∧
    post c') (fun d c' => q (T.cursor c) = .error (T.diagnostic d) (T.cursor c') ∧
      c'.rest.length ≤ c.rest.length ∧ T.Open c')

private theorem Open.congr {c' : Cursor} (h : T.Open c) (hrest : c'.rest = c.rest) : T.Open c' := by
  rwa [Open, hrest]

namespace Carries

variable {f : α → β} {g : γ → δ} {p : Parser α} {q : Parser β} {k : α → Parser γ}
  {k' : β → Parser δ}

private theorem mono {post' : Cursor → Prop} (h : T.Carries c post f p q)
    (hpost : ∀ c', c'.rest.length ≤ c.rest.length → post c' → post' c') : T.Carries c post' f p q :=
  Ends.mono h (fun _ c' ⟨hrun, hle, hc'⟩ => ⟨hrun, hle, hpost c' hle hc'⟩) fun _ _ h => h

private theorem step {p₁ : Parser α} {q₁ : Parser β} (hp : p c = p₁ c₁)
    (hq : q (T.cursor c) = q₁ (T.cursor c₁)) (hle : c₁.rest.length ≤ c.rest.length)
    (h : T.Carries c₁ post f p₁ q₁) : T.Carries c post f p q := by
  unfold Carries Ends at h ⊢
  rw [hp, hq]
  split
  · rename_i a c' hrun
    rw [hrun] at h
    exact ⟨h.1, Nat.le_trans h.2.1 hle, h.2.2⟩
  · rename_i d c' hrun
    rw [hrun] at h
    exact ⟨h.1, Nat.le_trans h.2.1 hle, h.2.2⟩

private theorem of_ok {a : α} (hp : p c = .ok a c₁) (hq : q (T.cursor c) = .ok (f a) (T.cursor c₁))
    (hle : c₁.rest.length ≤ c.rest.length) (hc₁ : post c₁) : T.Carries c post f p q := by
  unfold Carries Ends
  rw [hp]
  exact ⟨hq, hle, hc₁⟩

private theorem pure {a : α} {b : β} (hb : b = f a) (hc : post c) :
    T.Carries c post f (pure a) (pure b) :=
  ⟨by rw [hb]; rfl, Nat.le_refl _, hc⟩

private theorem bind {mid : Cursor → Prop} (h : T.Carries c mid f p q)
    (hk : ∀ a c', c'.rest.length ≤ c.rest.length → mid c' → T.Carries c' post g (k a) (k' (f a))) :
    T.Carries c post g (p >>= k) (q >>= k') := by
  unfold Carries Ends at h
  split at h
  · rename_i a c' hrun
    obtain ⟨hrun', hle, hc'⟩ := h
    exact step (run_bind_of_ok hrun) (run_bind_of_ok hrun') hle (hk a c' hle hc')
  · rename_i d c' hrun
    obtain ⟨hrun', hle, hc'⟩ := h
    have herror : (p >>= k) c = .error d c' := by
      change EStateM.bind p k c = _
      rw [EStateM.bind, hrun]
    have herror' : (q >>= k') (T.cursor c) = .error (T.diagnostic d) (T.cursor c') := by
      change EStateM.bind q k' (T.cursor c) = _
      rw [EStateM.bind, hrun']
    unfold Carries Ends
    rw [herror]
    exact ⟨herror', hle, hc'⟩

private theorem map {h : α → γ} {h' : β → δ} (hp : T.Carries c post f p q)
    (hh : ∀ a, h' (f a) = g (h a)) : T.Carries c post g (h <$> p) (h' <$> q) :=
  bind hp fun a _ _ hc' => pure (hh a) hc'

private theorem get {k : Cursor → Parser γ} {k' : Cursor → Parser δ}
    (h : T.Carries c post g (k c) (k' (T.cursor c))) :
    T.Carries c post g (get >>= k) (get >>= k') := h

private theorem set {c₂ : Cursor} {k : PUnit → Parser γ} {k' : PUnit → Parser δ}
    (hset : c₂ = T.cursor c₁) (hle : c₁.rest.length ≤ c.rest.length)
    (h : T.Carries c₁ post g (k ⟨⟩) (k' ⟨⟩)) :
    T.Carries c post g (set c₁ >>= k) (set c₂ >>= k') := by
  subst hset
  have hrun : (MonadState.set c₁ >>= k) c = k ⟨⟩ c₁ := rfl
  exact step hrun rfl hle h

private theorem remaining {k : Nat → Parser γ} {k' : Nat → Parser δ}
    (h : T.Carries c post g (k c.rest.length) (k' (c.rest.length + T.tail.length))) :
    T.Carries c post g (remaining >>= k) (remaining >>= k') := by
  rw [← length_rest_cursor (T := T) c] at h
  exact h

private theorem freshTag {span span' : Span} {k : Tag → Parser γ} {k' : Tag → Parser δ}
    (hspan : span' = T.span span)
    (h : T.Carries { c with nextId := c.nextId + 1 } post g (k ⟨c.nextId, span⟩)
      (k' (T.tag ⟨c.nextId, span⟩))) : T.Carries c post g (freshTag span >>= k)
      (freshTag span' >>= k') := by
  subst hspan
  have hrun : (Parser.freshTag span >>= k) c =
      k ⟨c.nextId, span⟩ { c with nextId := c.nextId + 1 } := rfl
  refine step hrun ?_ (Nat.le_refl _) h
  change k' ⟨c.nextId + T.shift, T.span span⟩ _ = k' (T.tag ⟨c.nextId, span⟩) _
  congr 1
  simp [cursor, Nat.add_right_comm]

private theorem building {build build' : Nat → Expr × Nat}
      (hbuild : ∀ next, build' (next + T.shift) =
      ((build next).1.retag T.tag, (build next).2 + T.shift))
    (hpost : post { c with nextId := (build c.nextId).2 }) :
    T.Carries c post (retag T.tag) (building build) (building build') := by
  refine ⟨?_, Nat.le_refl _, hpost⟩
  change EStateM.Result.ok (build' (c.nextId + T.shift)).1
    { T.cursor c with nextId := (build' (c.nextId + T.shift)).2 } = _
  rw [hbuild]
  rfl

end Carries

/-! ### Steps -/

/-- There is no kind at the end. -/
theorem kind?_eq_none (h : c.rest = []) : c.kind? = none := by
  rw [Cursor.kind?, h]
  rfl

private theorem rest_ne_nil (h : c.kind? = some kind) : c.rest ≠ [] :=
  fun hnil => by rw [kind?_eq_none hnil] at h; cases h

/-- Passing leaves less. -/
theorem length_advance_lt (h : c.kind? = some kind) : c.advance.rest.length < c.rest.length := by
  have hpos := length_pos_iff.mpr (rest_ne_nil h)
  rw [Cursor.rest_advance, length_tail]
  omega

private theorem Open.advance_of_kind? (hc : T.Open c) (h : c.kind? = some kind)
    (hkind : kind ≠ .newline) : T.Open c.advance :=
  hc.advance fun hline => hkind (by simpa [h] using hline)

private theorem Open.length_tail (hc : T.Open c) (h : c.rest.length ≤ 0) : T.tail.length = 0 :=
  length_eq_zero_iff.mpr (hc.tail_eq_nil (eq_nil_of_length_eq_zero (Nat.le_zero.mp h)))

/-! ### The smallest parsers -/

section Small

variable {g : γ → δ} (hc : T.Open c) {k : Span → Parser γ} {k' : Span → Parser δ}

include hc

private theorem carries_fail {f : α → β} {what : SyntaxFault} (hwhat : T.fault what = what) :
    T.Carries c post f (fail what) (fail what) := by
  refine ⟨?_, Nat.le_refl _, hc⟩
  change EStateM.Result.error (Diagnostic.parse what (T.cursor c).span) _ = _
  have hdiag : T.diagnostic (.parse what c.span) = .parse (T.fault what) (T.span c.span) := rfl
  rw [span_cursor hc, hdiag, hwhat]

private theorem carries_failExpected {f : α → β} (what : Expectation) :
    T.Carries c post f (failExpected what) (failExpected what) := by
  refine .get ?_
  rw [found_cursor hc]
  exact carries_fail hc rfl

private theorem carries_pass (h : T.Carries c.advance post g (k c.span) (k' (T.span c.span))) :
    T.Carries c post g (pass >>= k) (pass >>= k') := by
  refine .step run_pass_bind ?_ (by simp) h
  rw [run_pass_bind, span_cursor hc, advance_cursor hc]

private theorem carries_sees {k : Bool → Parser γ} {k' : Bool → Parser δ}
    (h : T.Carries c post g (k (c.kind? == some kind)) (k' (c.kind? == some kind))) :
    T.Carries c post g (sees kind >>= k) (sees kind >>= k') := by
  rw [← kind?_cursor hc] at h
  refine .step (run_bind_of_ok (run_sees kind)) (run_bind_of_ok (run_sees kind)) (Nat.le_refl _) ?_
  rw [← kind?_cursor hc]
  exact h

private theorem carries_passKind (hkind : c.kind? = some kind)
    (hne : kind ≠ .newline) (h : T.Open c.advance → c.advance.rest.length < c.rest.length →
      T.Carries c.advance post g (k c.span) (k' (T.span c.span))) : T.Carries c post g (pass >>= k)
      (pass >>= k') :=
  carries_pass hc (h (hc.advance_of_kind? hkind hne) (length_advance_lt hkind))

private theorem carries_acceptKind {k : Bool → Parser γ} {k' : Bool → Parser δ}
    (haccept : c.kind? = some kind → T.Carries c.advance post g (k true) (k' true))
    (hrefuse : c.kind? ≠ some kind → T.Carries c post g (k false) (k' false)) :
    T.Carries c post g (accept kind >>= k) (accept kind >>= k') := by
  have hkind' := kind?_cursor hc
  by_cases hkind : c.kind? = some kind
  · refine .step (run_bind_of_ok (run_accept_of_kind hkind)) ?_ (by simp) (haccept hkind)
    rw [run_bind_of_ok (run_accept_of_kind (hkind'.trans hkind)), advance_cursor hc]
  · refine .step (run_bind_of_ok (run_accept_of_ne hkind)) ?_ (Nat.le_refl _) (hrefuse hkind)
    rw [run_bind_of_ok (run_accept_of_ne (by rwa [hkind']))]

private theorem carries_accept {k : Bool → Parser γ} {k' : Bool → Parser δ}
    (haccept : T.Open c.advance → c.advance.rest.length < c.rest.length →
      T.Carries c.advance post g (k true) (k' true))
    (hrefuse : c.kind? ≠ some (.sign sign) → T.Carries c post g (k false) (k' false)) :
    T.Carries c post g (accept (.sign sign) >>= k) (accept (.sign sign) >>= k') :=
  carries_acceptKind hc (fun hkind => haccept (hc.advance_of_kind? hkind nofun)
    (length_advance_lt hkind)) hrefuse

private theorem carries_expect {what : Expectation}
      (h : T.Open c.advance → c.advance.rest.length < c.rest.length →
      T.Carries c.advance post g (k c.span) (k' (T.span c.span))) :
    T.Carries c post g (expect (.sign sign) what >>= k) (expect (.sign sign) what >>= k') := by
  simp only [expect, bind_assoc]
  refine carries_sees hc ?_
  by_cases hkind : c.kind? = some (.sign sign)
  · simp only [hkind, beq_self_eq_true, if_true]
    exact carries_passKind hc hkind nofun h
  · simp only [beq_eq_false_iff_ne.mpr hkind]
    have hfail : T.Carries c (fun _ => False) T.span (failExpected what)
        (failExpected what) := carries_failExpected hc what
    exact .bind hfail fun _ _ _ h => h.elim

private theorem carries_expectName {what : Expectation} {k : String × Span → Parser γ}
    {k' : String × Span → Parser δ}
    (h : ∀ name, T.Open c.advance → c.advance.rest.length < c.rest.length →
      T.Carries c.advance post g (k (name, c.span)) (k' (name, T.span c.span))) :
    T.Carries c post g (expectName what >>= k) (expectName what >>= k') := by
  by_cases hname : ∃ name, c.kind? = some (.name name)
  · obtain ⟨name, hname⟩ := hname
    refine .step (run_bind_of_ok (run_expectName what hname)) ?_ (by simp)
      (h name (hc.advance_of_kind? hname nofun) (length_advance_lt hname))
    rw [run_bind_of_ok (run_expectName what ((kind?_cursor hc).trans hname)), span_cursor hc,
      advance_cursor hc]
  · have hfail (c₀ : Cursor) (hc₀ : c₀.kind? = c.kind?) :
        expectName what c₀ = failExpected what c₀ := by
      rw [expectName, run_get_bind, hc₀]
      refine congrFun ?_ c₀
      split
      · exact absurd ⟨_, ‹_›⟩ hname
      · rfl
    have hexpect :
        T.Carries c (fun _ => False) (Prod.map id T.span) (expectName what) (expectName what) :=
      .step (hfail c rfl) (hfail _ (kind?_cursor hc)) (Nat.le_refl _) (carries_failExpected hc what)
    exact .bind hexpect fun _ _ _ h => h.elim

end Small

/-- Two parsers of expressions of which the first carries over to the second, where at most `n`
tokens are left. -/
def CarriesExpr (T : Transport) (n : Nat) (p q : Parser Expr) : Prop :=
  ∀ c, T.Open c → c.rest.length ≤ n → T.Carries c T.Open (retag T.tag) p q

section Operators

variable {tier : Tier} {operand operand' : Parser Expr} {n : Nat}

private theorem carries_tierRest (htier : tier .newline = none)
    (hoperand : T.CarriesExpr n operand operand') (steps : Nat) :
    ∀ (left : Expr) (c : Cursor), T.Open c → c.rest.length ≤ n → c.rest.length ≤ steps →
      T.Carries c T.Open (retag T.tag) (tierRest tier operand steps left)
      (tierRest tier operand' (steps + T.tail.length) (left.retag T.tag)) := by
  induction steps with
  | zero =>
    intro left c hc _ hsteps
    rw [Nat.zero_add, hc.length_tail hsteps]
    exact .pure rfl hc
  | succ steps ih =>
    intro left c hc hn hsteps
    rw [Nat.add_right_comm]
    refine .get ?_
    rw [kind?_cursor hc]
    split
    · exact .pure rfl hc
    · rename_i join hjoin
      obtain ⟨kind, hkind, htierKind⟩ := Option.bind_eq_some_iff.mp hjoin
      have hne : kind ≠ .newline := fun h => by rw [h, htier] at htierKind; cases htierKind
      refine carries_passKind hc hkind hne fun hopen hlt => .bind (hoperand _ hopen (by omega)) ?_
      intro right c₁ hle₁ hc₁
      refine .bind (.building (fun next => build_retag join next left right) (hc₁.congr rfl)) ?_
      intro joined c₂ hle₂ hc₂
      exact ih _ _ hc₂ (by omega) (by omega)

private theorem carriesExpr_tierOf (htier : tier .newline = none)
    (hoperand : T.CarriesExpr n operand operand') :
    T.CarriesExpr n (tierOf tier operand) (tierOf tier operand') := by
  intro c hc hn
  refine .bind (hoperand c hc hn) fun left c₁ hle₁ hc₁ => .remaining ?_
  exact carries_tierRest htier hoperand _ _ _ hc₁ (by omega) (Nat.le_refl _)

private theorem carriesExpr_foldr (hoperand : T.CarriesExpr n operand operand') (all : List Tier)
    (hall : ∀ tier ∈ all, tier .newline = none) :
    T.CarriesExpr n (all.foldr tierOf operand) (all.foldr tierOf operand') := by
  induction all with
  | nil => exact hoperand
  | cons tier all ih =>
    refine carriesExpr_tierOf (hall tier (by simp)) (ih fun t ht => hall t ?_)
    exact mem_cons_of_mem tier ht

private theorem carries_prefixed (hoperand : T.CarriesExpr n operand operand') (steps : Nat) :
    ∀ c : Cursor, T.Open c → c.rest.length ≤ n → c.rest.length ≤ steps →
      T.Carries c T.Open (retag T.tag) (prefixed operand steps)
        (prefixed operand' (steps + T.tail.length)) := by
  induction steps with
  | zero =>
    intro c hc hn hsteps
    rw [Nat.zero_add, hc.length_tail hsteps]
    exact hoperand c hc hn
  | succ steps ih =>
    intro c hc hn hsteps
    rw [Nat.add_right_comm]
    refine .get ?_
    rw [kind?_cursor hc]
    split
    · rename_i hnot
      refine carries_passKind hc hnot nofun fun hopen hlt => ?_
      refine .bind (ih _ hopen (by omega) (by omega)) fun inner c₁ _ hc₁ => ?_
      refine .freshTag ?_ (.pure rfl (hc₁.congr rfl))
      rw [span_retag, T.span_merge]
    · rename_i hminus
      refine carries_passKind hc hminus nofun fun hopen hlt => ?_
      refine .bind (ih _ hopen (by omega) (by omega)) fun inner c₁ _ hc₁ => ?_
      exact .building (fun next => negated_retag next _ inner) (hc₁.congr rfl)
    · exact hoperand c hc hn

end Operators

/-! ### Names and arguments -/

private theorem carries_memberNames (steps : Nat) :
    ∀ (name : String) (span : Span) (c : Cursor), T.Open c → c.rest.length ≤ steps →
      T.Carries c T.Open (Prod.map id T.span) (memberNames steps name span)
      (memberNames (steps + T.tail.length) name (T.span span)) := by
  induction steps with
  | zero =>
    intro name span c hc hsteps
    rw [Nat.zero_add, hc.length_tail hsteps]
    exact .pure rfl hc
  | succ steps ih =>
    intro name span c hc hsteps
    rw [Nat.add_right_comm]
    refine carries_accept hc (fun hopen hlt => ?_) fun _ => .pure rfl hc
    refine carries_expectName hopen fun part hopen' hlt' => ?_
    simp only [← T.span_merge]
    exact ih _ _ _ hopen' (by omega)

private theorem carries_dottedName (hc : T.Open c) :
    T.Carries c (fun c' => T.Open c' ∧ c'.rest.length < c.rest.length) (Prod.map id T.span)
      dottedName dottedName := by
  refine carries_expectName hc fun name hopen hlt => .remaining ?_
  refine (carries_memberNames _ _ _ _ hopen (Nat.le_refl _)).mono fun c' hle hc' => ⟨hc', ?_⟩
  omega

section Nested

variable {expr expr' : Parser Expr} {n : Nat} (hexpr : T.CarriesExpr n expr expr')
  (last : Option Sign)

include hexpr

private theorem carries_separated (steps : Nat) : ∀ c : Cursor, T.Open c → c.rest.length ≤ n →
    c.rest.length ≤ steps → T.Carries c T.Open (List.map (retag T.tag)) (separated expr last steps)
      (separated expr' last (steps + T.tail.length)) := by
  induction steps with
  | zero =>
    intro c hc hn hsteps
    rw [Nat.zero_add, hc.length_tail hsteps]
    exact .bind (hexpr c hc hn) fun first c₁ _ hc₁ => .pure rfl hc₁
  | succ steps ih =>
    intro c hc hn hsteps
    rw [Nat.add_right_comm]
    refine .bind (hexpr c hc hn) fun first c₁ hle₁ hc₁ => ?_
    refine carries_accept hc₁ (fun hopen hlt => ?_) fun _ => .pure rfl hc₁
    have hmore := ih _ hopen (by omega) (by omega)
    cases last with
    | none => exact .bind hmore fun more c₂ _ hc₂ => .pure rfl hc₂
    | some sign =>
      refine carries_sees hopen ?_
      split
      · exact .pure rfl hopen
      · exact .bind hmore fun more c₂ _ hc₂ => .pure rfl hc₂

private theorem carries_items (close : Sign) (hc : T.Open c) (hn : c.rest.length ≤ n)
    {g : γ → δ} {k : List Expr → Parser γ} {k' : List Expr → Parser δ}
    (hk : ∀ items c', c'.rest.length ≤ c.rest.length → T.Open c' →
      T.Carries c' post g (k items) (k' (items.map (retag T.tag)))) : T.Carries c post g
      (do
        let items ← if ← sees (.sign close) then pure []
          else separated expr last (← remaining)
        k items)
      (do
        let items ← if ← sees (.sign close) then pure []
          else separated expr' last (← remaining)
        k' items) := by
  refine carries_sees hc ?_
  split
  · exact hk [] c (Nat.le_refl _) hc
  · refine .remaining (.bind ?_ hk)
    exact carries_separated hexpr last _ _ hc hn (Nat.le_refl _)

private theorem carries_arguments (hc : T.Open c) (hkind : c.kind? = some (.sign .leftParen))
    (hn : c.rest.length ≤ n + 1) :
    T.Carries c T.Open (Prod.map (List.map (retag T.tag)) T.span) (arguments expr)
    (arguments expr') := by
  refine carries_passKind hc hkind nofun fun hopen hlt =>
    carries_items hexpr none .rightParen hopen (by omega) fun args c₁ _ hc₁ => ?_
  exact carries_expect hc₁ fun hopen₁ _ => .pure rfl hopen₁

private theorem carries_nameOrCall (hc : T.Open c) (hn : c.rest.length ≤ n + 1) :
    T.Carries c T.Open (retag T.tag) (nameOrCall expr) (nameOrCall expr') := by
  refine .bind (carries_dottedName hc) fun ⟨name, span⟩ c₁ hle₁ ⟨hc₁, hlt₁⟩ => ?_
  refine carries_sees hc₁ ?_
  by_cases hparen : c₁.kind? = some (.sign .leftParen)
  · simp only [hparen, beq_self_eq_true, if_true]
    refine .bind (carries_arguments hexpr hc₁ hparen (by omega)) fun ⟨args, stop⟩ c₂ _ hc₂ => ?_
    refine .freshTag (T.span_merge _ _).symm (.pure ?_ (hc₂.congr rfl))
    simp [retag]
  · simp only [beq_eq_false_iff_ne.mpr hparen]
    exact .freshTag rfl (.pure rfl (hc₁.congr rfl))

private theorem carries_grouped (hc : T.Open c) (hkind : c.kind? = some (.sign .leftParen))
    (hn : c.rest.length ≤ n + 1) :
    T.Carries c T.Open (retag T.tag) (grouped expr) (grouped expr') := by
  refine carries_passKind hc hkind nofun fun hopen hlt => .bind (hexpr _ hopen (by omega)) ?_
  refine fun inner c₁ _ hc₁ => carries_expect hc₁ fun hopen₁ _ => ?_
  exact .freshTag (T.span_merge _ _).symm (.pure rfl (hopen₁.congr rfl))

private theorem carries_listLiteral (hc : T.Open c) (hkind : c.kind? = some (.sign .leftBracket))
    (hn : c.rest.length ≤ n + 1) :
    T.Carries c T.Open (retag T.tag) (listLiteral expr) (listLiteral expr') := by
  refine carries_passKind hc hkind nofun fun hopen hlt =>
    carries_items hexpr _ .rightBracket hopen (by omega) fun items c₁ _ hc₁ => ?_
  refine carries_expect hc₁ fun hopen₁ _ => .freshTag (T.span_merge _ _).symm
    (.pure ?_ (hopen₁.congr rfl))
  simp [retag]

private theorem carries_castTo (target : DataType) {word : Keyword} (hc : T.Open c)
    (hkind : c.kind? = some (.keyword word)) (hn : c.rest.length ≤ n + 1) :
    T.Carries c T.Open (retag T.tag) (castTo expr target) (castTo expr' target) := by
  refine carries_passKind hc hkind nofun fun hopen hlt => carries_expect hopen fun hopen' hlt' => ?_
  refine .bind (hexpr _ hopen' (by omega)) ?_
  refine fun operand c₁ _ hc₁ => carries_expect hc₁ fun hopen₁ _ => ?_
  exact .freshTag (T.span_merge _ _).symm (.pure rfl (hopen₁.congr rfl))

private theorem carries_primary (hc : T.Open c) (hn : c.rest.length ≤ n + 1) :
    T.Carries c T.Open (retag T.tag) (primary expr) (primary expr') := by
  refine .get ?_
  rw [kind?_cursor hc]
  split
  · rename_i value hkind
    exact carries_passKind hc hkind nofun fun hopen _ => .freshTag rfl (.pure rfl (hopen.congr rfl))
  · exact carries_nameOrCall hexpr hc hn
  · rename_i hkind
    exact carries_grouped hexpr hc hkind hn
  · rename_i hkind
    exact carries_listLiteral hexpr hc hkind hn
  · rename_i word hkind
    split
    · exact carries_castTo hexpr _ hc hkind hn
    · exact carries_failExpected hc _
  · exact carries_failExpected hc _

end Nested

/-! ### Expressions -/

private theorem tiers_newline : ∀ tier ∈ tiers, tier .newline = none := by
  intro tier htier
  simp only [tiers, mem_cons, not_mem_nil, or_false] at htier
  rcases htier with rfl | rfl | rfl | rfl | rfl | rfl <;> rfl

private theorem run_expressionAt_of_nil (depth : Nat) (hrest : c.rest = []) :
    expressionAt depth c = failExpected .expression c := by
  obtain ⟨_, _, _, _, _⟩ := c
  cases hrest
  cases depth <;> rfl

private theorem carriesExpr_expressionAt (extra depth : Nat) :
    T.CarriesExpr depth (expressionAt depth) (expressionAt (depth + extra)) := by
  induction depth with
  | zero =>
    intro c hc hn
    have hrest := rest_cursor_eq_nil hc (eq_nil_of_length_eq_zero (Nat.le_zero.mp hn))
    exact .step rfl (run_expressionAt_of_nil _ hrest) (Nat.le_refl _) (carries_failExpected hc _)
  | succ depth ih =>
    rw [Nat.add_right_comm]
    refine carriesExpr_foldr (fun c hc hle => .remaining ?_) tiers tiers_newline
    exact carries_prefixed (fun c hc hle => carries_primary ih hc hle) _ _ hc hle (Nat.le_refl _)

private theorem carriesExpr_expression (n : Nat) : T.CarriesExpr n expression expression :=
  fun c hc _ => .remaining (carriesExpr_expressionAt _ _ c hc (Nat.le_refl _))

private theorem carries_expression (hc : T.Open c) :
    T.Carries c T.Open (retag T.tag) expression expression :=
  carriesExpr_expression c.rest.length c hc (Nat.le_refl _)

end Transport

end

/-!
## Statements and items carry over

Where a parser of statements succeeds the cursor is ready. Where it fails the cursor is still open:
the end of the line at fault is not passed, so that going on after the fault does not touch what
follows.
-/

open List BlockScript.Parser Stmt

namespace Transport

variable {α β : Type} {T : Transport} {c : Cursor} {word : Keyword}

private theorem Open.ready (h : T.Open c) : T.Ready c := .inl h

private theorem carries_expectLineEnd (hc : T.Open c) :
    T.Carries c T.Ready id expectLineEnd expectLineEnd := by
  refine .get ?_
  rw [isEmpty_rest_cursor hc]
  split
  · exact .pure rfl hc.ready
  · refine carries_acceptKind hc (fun _ => .pure rfl hc.ready_advance) fun _ => ?_
    exact carries_failExpected hc _

/-! ### Declarations -/

private theorem carries_typeName (hc : T.Open c) : T.Carries c T.Open id typeName typeName := by
  refine .get ?_
  simp only [kind?_cursor hc]
  split
  · exact carries_failExpected hc _
  · rename_i scalar hscalar
    have hopen : T.Open c.advance := hc.advance fun h => by simp [h] at hscalar
    refine carries_pass hc (carries_accept hopen (fun hopen' _ => ?_) fun _ => .pure rfl hopen)
    refine carries_expect hopen' fun hopen'' _ => ?_
    split
    · exact .pure rfl hopen''
    · refine ⟨?_, Nat.le_refl _, hopen''⟩
      rw [← T.span_merge]
      rfl

private theorem carries_typeAnnotation (hc : T.Open c) :
    T.Carries c T.Open id typeAnnotation typeAnnotation := by
  refine carries_accept hc (fun hopen _ => ?_) fun _ => .pure rfl hc
  exact .bind (carries_typeName hopen) fun _ _ _ hc₁ => .pure rfl hc₁

private theorem carries_variableDecl (hc : T.Open c) (hkind : c.kind? = some (.keyword word)) :
    T.Carries c (T.Past c) (relabel T.relabeling) variableDecl variableDecl := by
  refine carries_passKind hc hkind nofun fun hopen hlt => carries_expectName hopen
    fun name hopen' hlt' => ?_
  refine .bind ( carries_typeAnnotation hopen') fun type c₁ hle₁ hc₁ => ?_
  -- What follows the value, if there is one.
  have hlast (value : Option Expr) (c₂ : Cursor) (hle₂ : c₂.rest.length ≤ c₁.rest.length)
      (hc₂ : T.Open c₂) : T.Carries c₂ (T.Past c) (relabel T.relabeling)
        (do
          expectLineEnd
          return .varDecl name type value false
            (c.span.merge ((value.map Expr.span).getD c.advance.span)))
        (do
          expectLineEnd
          return .varDecl name type (value.map (Expr.retag T.tag)) false ((T.span c.span).merge
            (((value.map (Expr.retag T.tag)).map Expr.span).getD (T.span c.advance.span)))) := by
    refine .bind (carries_expectLineEnd hc₂) fun _ c₃ hle₃ hc₃ => .pure ?_ ⟨hc₃, by omega⟩
    cases value <;> simp [relabel, relabeling, T.span_merge]
  refine carries_accept hc₁ (fun hopen₁ hlt₁ => ?_) fun _ => hlast none c₁ (Nat.le_refl _) hc₁
  refine .bind (.map (g := Option.map (Expr.retag T.tag)) (carries_expression hopen₁) fun _ => rfl)
    ?_
  exact fun value c₂ hle₂ hc₂ => hlast value c₂ (by omega) hc₂

private theorem carries_constantDecl (hc : T.Open c) (hkind : c.kind? = some (.keyword word)) :
    T.Carries c (T.Past c) (relabel T.relabeling) constantDecl constantDecl := by
  refine carries_passKind hc hkind nofun fun hopen hlt => carries_expectName hopen
    fun name hopen' hlt' => ?_
  refine .bind ( carries_typeAnnotation hopen') fun type c₁ hle₁ hc₁ => ?_
  refine carries_expect hc₁ fun hopen₁ hlt₁ => .bind (carries_expression hopen₁)
    fun value c₂ hle₂ hc₂ => ?_
  refine .bind (carries_expectLineEnd hc₂) fun _ c₃ hle₃ hc₃ => .pure ?_ ⟨hc₃, by omega⟩
  simp [relabel, relabeling, T.span_merge]

private theorem carries_callOrAssignment (hc : T.Open c) :
    T.Carries c (T.Past c) (relabel T.relabeling) callOrAssignment callOrAssignment := by
  refine .bind (carries_dottedName hc) fun ⟨name, nameSpan⟩ c₁ hle₁ ⟨hc₁, hlt₁⟩ => .get ?_
  simp only [kind?_cursor hc₁]
  refine carries_sees hc₁ ?_
  by_cases hparen : c₁.kind? = some (.sign .leftParen)
  · simp only [hparen, beq_self_eq_true, if_true]
    refine .bind (carries_arguments (carriesExpr_expression c₁.rest.length) hc₁ hparen (by omega))
      ?_
    intro ⟨args, stop⟩ c₂ hle₂ hc₂
    refine .bind (carries_expectLineEnd hc₂) fun _ c₃ hle₃ hc₃ => .pure ?_ ⟨hc₃, by omega⟩
    simp [relabel, relabeling, T.span_merge]
  · simp only [beq_eq_false_iff_ne.mpr hparen, Bool.false_eq_true, if_false]
    split
    · exact carries_failExpected hc₁ _
    · rename_i op hop
      have hopen : T.Open c₁.advance := hc₁.advance fun h => by simp [h] at hop
      refine carries_pass hc₁ (.bind (carries_expression hopen) fun value c₂ hle₂ hc₂ => ?_)
      simp only [Cursor.rest_advance, length_tail] at hle₂
      refine .bind (carries_expectLineEnd hc₂) fun _ c₃ hle₃ hc₃ => .pure ?_ ⟨hc₃, by omega⟩
      simp [relabel, relabeling, T.span_merge]

/-! ### Bodies -/

/-- After a fault, too, the cursor is ready and something has been passed. -/
theorem carries_recovering {f : α → β} {p : Parser α} {q : Parser β} (hrest : c.rest ≠ [])
    (h : T.Carries c (T.Past c) f p q) (indent : Nat) :
    T.Carries c (T.Past c) (Option.map f) (recovering p indent)
      (recovering q (T.indent indent)) := by
  unfold Carries Ends at h
  split at h
  · rename_i a c' hrun
    obtain ⟨hrun', hle, hpast⟩ := h
    refine .of_ok (a := some a) ?_ ?_ hle hpast
    · rw [recovering, hrun]
    · rw [recovering, hrun']
      rfl
  · rename_i d c' hrun
    obtain ⟨hrun', hle, hopen⟩ := h
    obtain ⟨hrecover, hready⟩ := recover_cursor hopen d indent
    have hlt : ((c'.report d).recover indent).rest.length < c.rest.length := by
      by_cases hnil : c'.rest = []
      · have hzero : ((c'.report d).recover indent).rest = [] := by
          rw [Cursor.recover, Cursor.report, hnil]
          rfl
        rw [hzero]
        exact length_pos_iff.mpr hrest
      · exact Nat.lt_of_lt_of_le (length_recover_lt hnil d indent) hle
    refine .of_ok (a := none) ?_ ?_ (Nat.le_of_lt hlt) ⟨hready, hlt⟩
    · rw [recovering, hrun]
    · rw [recovering, hrun']
      exact congrArg (EStateM.Result.ok none) hrecover

/-- Two parsers of statements of which the first carries over to the second, where at most `n`
tokens are left. -/
def CarriesStmt (T : Transport) (n : Nat) (p q : Parser Stmt) : Prop :=
  ∀ c, T.Open c → c.rest.length ≤ n → T.Carries c (T.Past c) (relabel T.relabeling) p q

section Nested

variable {stmt stmt' : Parser Stmt} {n : Nat} (hstmt : T.CarriesStmt n stmt stmt')

include hstmt

private theorem carries_bodyLines (header column steps : Nat) : ∀ c : Cursor, T.Ready c →
    c.rest.length ≤ n → c.rest.length ≤ steps →
    T.Carries c T.Ready (List.map (relabel T.relabeling)) (bodyLines stmt header column steps)
      (bodyLines stmt' (T.indent header) (T.indent column) (steps + T.tail.length)) := by
  induction steps with
  | zero =>
    intro c hc _ hsteps
    have hrest := eq_nil_of_length_eq_zero (Nat.le_zero.mp hsteps)
    refine .of_ok rfl ?_ (Nat.le_refl _) hc
    cases 0 + T.tail.length with
    | zero => rfl
    | succ left =>
      rw [bodyLines, run_get_bind, isEmpty_or_indent_le_cursor, if_pos (by simp [hrest])]
      rfl
  | succ steps ih =>
    intro c hc hn hsteps
    rw [Nat.add_right_comm]
    refine .get ?_
    rw [isEmpty_or_indent_le_cursor]
    split
    · exact .pure rfl hc
    · rename_i hend
      have hrest : c.rest ≠ [] := fun hnil => hend (by simp [hnil])
      have hopen : T.Open c := hc.resolve_right hrest
      simp only [indent_cursor hopen, span_cursor hopen, ne_eq, T.indent_inj]
      split
      · obtain ⟨hrecover, hready⟩ :=
          recover_cursor hopen (.parse (.unevenIndentation column c.indent) c.span) column
        have hlt := length_recover_lt hrest (.parse (.unevenIndentation column c.indent) c.span)
          column
        exact .set hrecover (Nat.le_of_lt hlt) (ih _ hready (by omega) (by omega))
      · refine .bind (carries_recovering hrest (hstmt c hopen hn) column) ?_
        intro first c₁ hle₁ ⟨hc₁, hlt₁⟩
        refine .bind (ih c₁ hc₁ (by omega) (by omega)) fun more c₂ _ hc₂ => .pure ?_ hc₂
        cases first <;> simp

private theorem carries_body (header : Nat) (hc : T.Open c) (hn : c.rest.length ≤ n + 1) :
    T.Carries c T.Ready (List.map (relabel T.relabeling)) (body stmt header)
    (body stmt' (T.indent header)) := by
  refine carries_expect hc fun hopen hlt => .get ?_
  rw [isEmpty_rest_cursor hopen, kind?_cursor hopen]
  split
  · refine .bind (hstmt _ hopen (by omega)) fun first c₁ _ ⟨hc₁, _⟩ => .pure rfl hc₁
  · -- The lines below, from a cursor that has passed the end of the header.
    have hbelow (c₁ : Cursor) (hc₁ : T.Ready c₁) (hn₁ : c₁.rest.length ≤ n) :
        T.Carries c₁ T.Ready (List.map (relabel T.relabeling))
          (do
            let c₂ ← get
            if c₂.rest.isEmpty || c₂.indent ≤ header then
              set (c₂.report (.parse .missingBody c.span))
              return []
            bodyLines stmt header c₂.indent c₂.rest.length)
          (do
            let c₂ ← get
            if c₂.rest.isEmpty || c₂.indent ≤ T.indent header then
              set (c₂.report (.parse .missingBody (T.span c.span)))
              return []
            bodyLines stmt' (T.indent header) c₂.indent c₂.rest.length) := by
      refine .get ?_
      rw [isEmpty_or_indent_le_cursor]
      split
      · refine .set ?_ (Nat.le_refl _) (.pure rfl ?_)
        · rw [← report_cursor]
          rfl
        · exact hc₁
      · rename_i hend
        have hopen₁ : T.Open c₁ := hc₁.resolve_right fun hnil => hend (by simp [hnil])
        rw [indent_cursor hopen₁, length_rest_cursor]
        exact carries_bodyLines hstmt header _ _ c₁ hc₁ hn₁ (Nat.le_refl _)
    refine carries_acceptKind hopen (fun hline => ?_) fun _ => ?_
    · have hlt' := length_advance_lt hline
      exact hbelow _ hopen.ready_advance (by omega)
    · exact hbelow _ hopen.ready (by omega)

private theorem carries_conditional (steps : Nat) :
    ∀ c : Cursor, T.Open c → ∀ {word : Keyword}, c.kind? = some (.keyword word) →
      c.rest.length ≤ n + 1 → c.rest.length ≤ steps → T.Carries c (T.Past c) (relabel T.relabeling)
      (conditional stmt steps) (conditional stmt' (steps + T.tail.length)) := by
  induction steps with
  | zero =>
    intro c _ word hkind _ hsteps
    have hlt := length_advance_lt hkind
    omega
  | succ steps ih =>
    intro c hc word hkind hn hsteps
    rw [Nat.add_right_comm]
    refine .get (carries_passKind hc hkind nofun fun hopen hlt => ?_)
    rw [indent_cursor hc]
    refine .bind (carries_expression hopen) fun condition c₁ hle₁ hc₁ => ?_
    refine .bind (carries_body hstmt c.indent hc₁ (by omega)) fun thenBody c₂ hle₂ hc₂ => .get ?_
    have hlast (elseBody : List Stmt) (c₃ : Cursor) (hle₃ : c₃.rest.length ≤ c₂.rest.length)
        (hc₃ : T.Ready c₃) : T.Carries c₃ (T.Past c) (relabel T.relabeling)
          (pure (.branch condition thenBody elseBody (c.span.merge condition.span)))
          (pure (.branch (condition.retag T.tag) (thenBody.map (relabel T.relabeling))
            (elseBody.map (relabel T.relabeling))
            ((T.span c.span).merge (condition.retag T.tag).span))) := by
      refine .pure ?_ ⟨hc₃, by omega⟩
      simp [relabel, relabeling, T.span_merge]
    -- A word that goes on with the condition is not what follows.
    have hseen {word : Keyword} (hword : c₂.kind? = some (.keyword word)) : T.Open c₂ :=
      hc₂.resolve_right fun hnil => by rw [kind?_eq_none hnil] at hword; cases hword
    have hind {word : Keyword} (hword : word = .elifWord ∨ word = .elseWord) :
        ((T.cursor c₂).kind? == some (.keyword word) && (T.cursor c₂).indent == T.indent c.indent) =
          (c₂.kind? == some (.keyword word) && c₂.indent == c.indent) := by
      rw [kind?_beq_cursor hc₂ hword]
      cases hkind₂ : c₂.kind? == some (.keyword word) with
      | false => rfl
      | true =>
        rw [indent_cursor (hseen (eq_of_beq hkind₂)), Bool.eq_iff_iff]
        simp [T.indent_inj]
    simp only [hind (.inl rfl), hind (.inr rfl)]
    split
    · rename_i helif
      have hkind₂ := eq_of_beq (Bool.and_eq_true _ _ ▸ helif).1
      have hnested := ih c₂ (hseen hkind₂) hkind₂ (by omega) (by omega)
      refine .bind (.map (g := List.map (relabel T.relabeling))
        (hnested.mono fun _ _ h => h.1) fun _ => rfl) hlast
    · split
      · rename_i helse
        have hkind₂ := eq_of_beq (Bool.and_eq_true _ _ ▸ helse).1
        refine carries_passKind (hseen hkind₂) hkind₂ nofun fun hopen₂ hlt₂ => ?_
        refine .bind (carries_body hstmt c.indent hopen₂ (by omega)) ?_
        exact fun elseBody c₃ hle₃ hc₃ => hlast elseBody c₃ (by omega) hc₃
      · exact hlast [] c₂ (Nat.le_refl _) hc₂

private theorem carries_loopStatement (word : Keyword) (hc : T.Open c) {first : Keyword}
    (hkind : c.kind? = some (.keyword first)) (hn : c.rest.length ≤ n + 1) :
    T.Carries c (T.Past c) (relabel T.relabeling) (loopStatement stmt word)
    (loopStatement stmt' word) := by
  refine .get (carries_passKind hc hkind nofun fun hopen hlt => carries_sees hopen ?_)
  rw [indent_cursor hc]
  split
  · refine .bind (carries_body hstmt c.indent hopen (by omega)) fun lines c₁ hle₁ hc₁ => ?_
    refine .pure ?_ ⟨hc₁, by omega⟩
    simp [relabel, LoopKind.relabel, relabeling]
  · refine .bind (carries_expression hopen) fun header c₁ hle₁ hc₁ => ?_
    have hlast (kind : LoopKind) (c₂ : Cursor) (hle₂ : c₂.rest.length ≤ c₁.rest.length)
        (hc₂ : T.Open c₂) : T.Carries c₂ (T.Past c) (relabel T.relabeling)
          (do return .loop kind (← body stmt c.indent) (c.span.merge header.span))
          (do return .loop (kind.relabel T.relabeling) (← body stmt' (T.indent c.indent))
                ((T.span c.span).merge (header.retag T.tag).span)) := by
      refine .bind (carries_body hstmt c.indent hc₂ (by omega)) fun lines c₃ hle₃ hc₃ => ?_
      refine .pure ?_ ⟨hc₃, by omega⟩
      simp [relabel, relabeling, T.span_merge]
    split
    · exact hlast (.times header) c₁ (Nat.le_refl _) hc₁
    · exact hlast (.until header) c₁ (Nat.le_refl _) hc₁
    · have hinverted : T.Carries c₁ T.Open (Expr.retag T.tag) (building header.inverted)
          (building (header.retag T.tag).inverted) :=
        .building (fun next => inverted_retag next header) (hc₁.congr rfl)
      exact .bind (.map (g := LoopKind.relabel T.relabeling) hinverted fun _ => rfl) hlast

end Nested

/-! ### Statements and items -/

private theorem run_statementAt_of_nil (depth : Nat) (hrest : c.rest = []) :
    statementAt depth c = failExpected .statement c := by
  obtain ⟨_, _, _, _, _⟩ := c
  cases hrest
  cases depth <;> rfl

/-- Statements at any depth. -/
theorem carriesStmt_statementAt (extra depth : Nat) :
    T.CarriesStmt depth (statementAt depth) (statementAt (depth + extra)) := by
  induction depth with
  | zero =>
    intro c hc hle
    have hrest := rest_cursor_eq_nil hc (eq_nil_of_length_eq_zero (Nat.le_zero.mp hle))
    exact .step rfl (run_statementAt_of_nil _ hrest) (Nat.le_refl _) (carries_failExpected hc _)
  | succ depth ih =>
    intro c hc hle
    rw [Nat.add_right_comm]
    refine .get ?_
    rw [kind?_cursor hc]
    split
    · exact carries_callOrAssignment hc
    · rename_i word hword
      split
      · exact carries_variableDecl hc hword
      · exact carries_constantDecl hc hword
      · exact .remaining (carries_conditional ih _ c hc hword hle (Nat.le_refl _))
      · exact carries_loopStatement ih _ hc hword hle
      · exact carries_loopStatement ih _ hc hword hle
      · exact carries_loopStatement ih _ hc hword hle
      · exact carries_fail hc rfl
      · exact carries_fail hc rfl
      · refine .get ?_
        rw [found_cursor hc]
        exact carries_fail hc rfl
      · refine .get ?_
        rw [found_cursor hc]
        exact carries_fail hc rfl
      · exact carries_failExpected hc _
    · exact carries_fail hc rfl
    · exact carries_failExpected hc _

/-- Statements carry over. -/
theorem carriesStmt_statement (n : Nat) : T.CarriesStmt n statement statement :=
  fun c hc _ => .remaining (carriesStmt_statementAt _ _ c hc (Nat.le_refl _))

private theorem carries_handler (hc : T.Open c) (hkind : c.kind? = some (.sign .atSign)) :
    T.Carries c (T.Past c) (relabel T.relabeling) handler handler := by
  refine .get (carries_passKind hc hkind nofun fun hopen hlt => carries_expectName hopen
    fun name hopen' hlt' => ?_)
  rw [indent_cursor hc]
  have hlast (param : Option Expr) (c₁ : Cursor)
      (hle₁ : c₁.rest.length ≤ c.advance.advance.rest.length)
      (hc₁ : T.Open c₁) : T.Carries c₁ (T.Past c) (relabel T.relabeling)
        (do
          let lines ← body statement c.indent
          return .event .builtin name param lines
            (c.span.merge ((param.map Expr.span).getD c.advance.span)) (← get).lastLine)
        (do
          let lines ← body statement (T.indent c.indent)
          return .event .builtin name (param.map (Expr.retag T.tag)) lines
            ((T.span c.span).merge (((param.map (Expr.retag T.tag)).map Expr.span).getD
              (T.span c.advance.span))) (← get).lastLine) := by
    refine .bind (carries_body (carriesStmt_statement c.rest.length) c.indent hc₁ (by omega)) ?_
    intro lines c₂ hle₂ hc₂
    refine .get (.pure ?_ ⟨hc₂, by omega⟩)
    cases param <;> simp [relabel, relabeling, T.span_merge, cursor]
  refine carries_sees hopen' ?_
  split
  · exact hlast none _ (Nat.le_refl _) hopen'
  · refine .bind (.map (g := Option.map (Expr.retag T.tag))
      (carries_expression hopen') fun _ => rfl) ?_
    exact hlast

private theorem carries_eventDecl (hc : T.Open c) (hkind : c.kind? = some (.keyword word)) :
    T.Carries c (T.Past c) (relabel T.relabeling) eventDecl eventDecl := by
  refine .get (carries_passKind hc hkind nofun fun hopen hlt => carries_expectName hopen
    fun name hopen' hlt' => ?_)
  rw [indent_cursor hc]
  refine .bind (carries_body (carriesStmt_statement c.rest.length) c.indent hopen' (by omega))
    fun lines c₁ hle₁ hc₁ => ?_
  refine .get (.pure ?_ ⟨hc₁, by omega⟩)
  simp [relabel, relabeling, T.span_merge, cursor]

private theorem carries_parameter (hc : T.Open c) :
    T.Carries c T.Open (Parameter.relabel T.relabeling) parameter parameter := by
  refine carries_expectName hc fun name hopen _ => carries_expect hopen fun hopen' _ => ?_
  exact .bind (carries_typeName hopen') fun type c₁ _ hc₁ => .pure rfl hc₁

private theorem carries_parameterList (steps : Nat) :
    ∀ c : Cursor, T.Open c → c.rest.length ≤ steps →
      T.Carries c T.Open (List.map (Parameter.relabel T.relabeling)) (parameterList steps)
      (parameterList (steps + T.tail.length)) := by
  induction steps with
  | zero =>
    intro c hc hsteps
    rw [Nat.zero_add, hc.length_tail hsteps]
    exact .bind (carries_parameter hc) fun first c₁ _ hc₁ => .pure rfl hc₁
  | succ steps ih =>
    intro c hc hsteps
    rw [Nat.add_right_comm]
    refine .bind (carries_parameter hc) fun first c₁ hle₁ hc₁ => ?_
    refine carries_accept hc₁ (fun hopen hlt => ?_) fun _ => .pure rfl hc₁
    exact .bind (ih _ hopen (by omega)) fun more c₂ _ hc₂ => .pure rfl hc₂

private theorem carries_functionDecl (hc : T.Open c) (hkind : c.kind? = some (.keyword word)) :
    T.Carries c (T.Past c) (relabel T.relabeling) functionDecl functionDecl := by
  refine .get (carries_passKind hc hkind nofun fun hopen hlt => carries_expectName hopen
    fun name hopen' hlt' => ?_)
  rw [indent_cursor hc]
  refine carries_expect hopen' fun hopen'' hlt'' => ?_
  have hlast (params : List Parameter) (c₁ : Cursor)
      (hle₁ : c₁.rest.length ≤ c.advance.advance.advance.rest.length) (hc₁ : T.Open c₁) :
      T.Carries c₁ (T.Past c) (relabel T.relabeling)
        (do
          let stop ← expect (.sign .rightParen) .parameterEnd
          let lines ← body statement c.indent
          return .funcDecl name params lines (c.span.merge stop) (← get).lastLine)
        (do
          let stop ← expect (.sign .rightParen) .parameterEnd
          let lines ← body statement (T.indent c.indent)
          return .funcDecl name (params.map (Parameter.relabel T.relabeling)) lines
            ((T.span c.span).merge stop) (← get).lastLine) := by
    refine carries_expect hc₁ fun hopen₁ hlt₁ => ?_
    refine .bind (carries_body (carriesStmt_statement c.rest.length) c.indent hopen₁ (by omega))
      fun lines c₂ hle₂ hc₂ => ?_
    refine .get (.pure ?_ ⟨hc₂, by omega⟩)
    simp [relabel, relabeling, T.span_merge, cursor]
  refine carries_sees hopen'' ?_
  split
  · exact hlast [] _ (Nat.le_refl _) hopen''
  · refine .remaining (.bind ?_ hlast)
    exact carries_parameterList _ _ hopen'' (Nat.le_refl _)

/-- Items carry over. -/
theorem carries_item (hc : T.Open c) : T.Carries c (T.Past c) (relabel T.relabeling) item item := by
  refine .get ?_
  rw [kind?_cursor hc]
  split
  · rename_i hkind
    exact carries_handler hc hkind
  · rename_i hkind
    exact carries_eventDecl hc hkind
  · rename_i hkind
    exact carries_variableDecl hc hkind
  · rename_i hkind
    exact carries_constantDecl hc hkind
  · rename_i hkind
    exact carries_functionDecl hc hkind
  · refine .get ?_
    rw [found_cursor hc]
    exact carries_fail hc rfl

private theorem indent_pos_iff (a : Nat) : 0 < T.indent a ↔ 0 < a := by
  have h := T.indent_lt_iff 0 a
  rwa [T.indent_zero] at h

/-- The items before what follows are read to their end, and then what follows is read. -/
theorem run_items_cursor (steps : Nat) :
    ∀ (steps' : Nat) (c : Cursor), T.Ready c → c.rest.length ≤ steps →
      c.rest.length + T.tail.length ≤ steps' → ∃ statements c' left,
      items steps c = .ok statements c' ∧ c'.rest = [] ∧ T.tail.length ≤ left ∧
      items steps' (T.cursor c) = ((statements.map (relabel T.relabeling) ++ ·) <$> items left)
      (T.cursor c') := by
  induction steps with
  | zero =>
    intro steps' c _ hsteps hsteps'
    have hrest : c.rest = [] := eq_nil_of_length_eq_zero (by omega)
    exact ⟨[], c, steps', rfl, hrest, by omega, by simp⟩
  | succ steps ih =>
    intro steps' c hc hsteps hsteps'
    cases hkind : c.kind? with
    | none =>
      have hrest : c.rest = [] := by simpa [Cursor.kind?] using hkind
      exact ⟨[], c, steps', run_items_of_nil _ hrest, hrest, by omega, by simp⟩
    | some kind =>
      have hlt := length_advance_lt hkind
      have hrest := rest_ne_nil hkind
      have hopen : T.Open c := hc.resolve_right hrest
      have hkind' := (kind?_cursor hopen).trans hkind
      obtain ⟨steps', rfl⟩ : ∃ k, steps' = k + 1 := ⟨steps' - 1, by omega⟩
      by_cases hline : kind = .newline
      · subst hline
        rw [run_items_of_newline _ hkind, run_items_of_newline _ hkind', advance_cursor hopen]
        exact ih _ _ hopen.ready_advance (by omega) (by omega)
      · by_cases hind : 0 < c.indent
        · have hlt' := length_recover_lt hrest (.parse .indentedItem c.span) 0
          obtain ⟨hrecover, hready⟩ := recover_cursor hopen (.parse .indentedItem c.span) 0
          rw [T.indent_zero] at hrecover
          have hind' : 0 < (T.cursor c).indent := by
            rwa [indent_cursor hopen, T.indent_pos_iff]
          rw [run_items_of_indented _ hkind hline hind,
            run_items_of_indented _ hkind' hline hind', span_cursor hopen]
          have hmore := ih steps' _ hready (by omega) (by omega)
          rw [← hrecover] at hmore
          exact hmore
        · have hzero : c.indent = 0 := by omega
          have hzero' : (T.cursor c).indent = 0 := by rw [indent_cursor hopen, hzero, T.indent_zero]
          rw [run_items_of_item _ hkind hline hzero, run_items_of_item _ hkind' hline hzero']
          obtain ⟨first, c₁, hfirst⟩ := exists_run_recovering item 0 c
          obtain ⟨hfirst', -, hready, hlt₁⟩ :=
            Ends.of_ok (carries_recovering hrest (carries_item hopen) 0) hfirst
          rw [T.indent_zero] at hfirst'
          obtain ⟨more, c', left, hmore, hc', hleft, hmore'⟩ :=
            ih steps' c₁ hready (by omega) (by omega)
          refine ⟨first.toList ++ more, c', left, ?_, hc', hleft, ?_⟩
          · rw [run_bind_of_ok hfirst, run_bind_of_ok hmore]
            rfl
          · rw [run_bind_of_ok hfirst', run_bind_congr hmore']
            cases first <;> simp

end Transport

end BlockScript
