import BlockScript.CommandLine
import BlockScript.Proofs.Tables

/-!
# Outputs of a run

A build writes the target of each source to a path that comes from the name of the source. The
sources are built at the same time, and nobody compares their paths. A step of the work on a source
changes nothing but the place of its output and the place where this output is prepared. So,
whatever the order of the steps, the output of a source holds the target of this source unless
another source of the run has its output at the same place. If one has, either of the two may be
lost.
-/

namespace BlockScript

open List

/-! ### Places of paths -/

namespace Path

private theorem split_append (cs : List Char) : ∃ front last, ∀ more : List Char, '/' ∉ more →
    split (cs ++ more) = front ++ [last ++ more] := by
  induction cs with
  | nil =>
    refine ⟨[], [], fun more hmore => ?_⟩
    induction more with
    | nil => rfl
    | cons c rest ih =>
      rw [mem_cons, not_or] at hmore
      have hsplit : split rest = [rest] := ih hmore.2
      rw [nil_append, split, if_neg fun h => hmore.1 h.symm, hsplit]
      rfl
  | cons c rest ih =>
    obtain ⟨front, last, hsplit⟩ := ih
    by_cases hc : c = '/'
    · refine ⟨[] :: front, last, fun more hmore => ?_⟩
      rw [cons_append, split, if_pos hc, hsplit more hmore]
      rfl
    · cases front with
      | nil =>
        refine ⟨[], c :: last, fun more hmore => ?_⟩
        rw [cons_append, split, if_neg hc, hsplit more hmore]
        rfl
      | cons piece pieces =>
        refine ⟨(c :: piece) :: pieces, last, fun more hmore => ?_⟩
        rw [cons_append, split, if_neg hc, hsplit more hmore]
        rfl

private theorem segments_append (path : String) : ∃ front last, ∀ more : String, '/' ∉ more.toList →
    segments (path ++ more) = front ++ [last ++ more] := by
  have hsegments (cs : List Char) : ∃ front last, ∀ more : String, '/' ∉ more.toList →
      (split (cs ++ more.toList)).map String.ofList = front ++ [last ++ more] := by
    obtain ⟨front, last, hsplit⟩ := split_append cs
    refine ⟨front.map String.ofList, String.ofList last, fun more hmore => ?_⟩
    simp [hsplit more.toList hmore]
  cases hpath : path.toList with
  | nil =>
    obtain ⟨front, last, hfront⟩ := hsegments []
    refine ⟨front, last, fun more hmore => ?_⟩
    -- A text without slashes is not absolute.
    have habsolute : isAbsolute (path ++ more) = false := by
      rw [isAbsolute, String.toList_append, hpath, nil_append, beq_eq_false_iff_ne]
      exact fun hhead => hmore (mem_of_head? hhead)
    rw [segments, habsolute, if_neg Bool.false_ne_true, String.toList_append, hpath,
      hfront more hmore]
  | cons c rest =>
    by_cases hc : c = '/'
    · obtain ⟨front, last, hfront⟩ := hsegments rest
      refine ⟨front, last, fun more hmore => ?_⟩
      rw [← hfront more hmore, segments, isAbsolute, String.toList_append, hpath, hc]
      rfl
    · obtain ⟨front, last, hfront⟩ := hsegments (c :: rest)
      refine ⟨front, last, fun more hmore => ?_⟩
      rw [← hfront more hmore, segments, isAbsolute, String.toList_append, hpath, if_neg]
      simpa using hc

private theorem exists_output_eq (source : String) (out : Option String) :
    ∃ path, output source out = path ++ outputSuffix := by
  unfold output join
  dsimp only
  split
  · exact ⟨_, rfl⟩
  split
  · exact ⟨_, (String.append_assoc ..).symm⟩
  · exact ⟨_, by rw [← String.append_assoc]⟩

end Path

namespace Place

/-- The place that a path names. -/
def ofPath (path : String) : Place :=
  (Path.segments path).foldl Files.step (if Path.isAbsolute path then ["/"] else [])

private theorem exists_ofPath_append (path : String) : ∃ parent name, ∀ more : String,
    '/' ∉ more.toList → 2 < more.length → ofPath (path ++ more) = parent ++ [name ++ more] := by
  obtain ⟨front, last, hsegments⟩ := Path.segments_append path
  refine ⟨front.foldl Files.step (if Path.isAbsolute path then ["/"] else []), last,
    fun more hmore hlen => ?_⟩
  have hne (text : String) (htext : text.length ≤ 2) : last ++ more ≠ text := by
    rintro rfl
    rw [String.length_append] at htext
    omega
  have habsolute : Path.isAbsolute (path ++ more) = Path.isAbsolute path := by
    rw [Path.isAbsolute, Path.isAbsolute, String.toList_append, head?_append]
    cases path.toList with
    | nil =>
      have hhead : more.toList.head? ≠ some '/' := fun hhead => hmore (mem_of_head? hhead)
      simp [hhead]
    | cons => rfl
  unfold ofPath
  rw [hsegments more hmore, habsolute, foldl_append, foldl_cons, foldl_nil, Files.step, Path.counts]
  rw [if_neg (by simp [hne "" (by decide), hne "." (by decide)]), if_neg (hne ".." (by decide))]

variable (source other : String) (out : Option String)

private theorem exists_ofPath_output : ∃ parent name,
    ofPath (Path.output source out) = parent ++ [name ++ Path.outputSuffix] ∧
      ofPath (Path.staging source out) = parent ++ [name ++ (Path.outputSuffix ++ ".partial")] := by
  obtain ⟨path, hpath⟩ := Path.exists_output_eq source out
  obtain ⟨parent, name, hplace⟩ := exists_ofPath_append path
  refine ⟨parent, name, ?_, ?_⟩
  · rw [hpath, hplace _ (by decide) (by decide)]
  · rw [Path.staging, hpath, String.append_assoc, hplace _ (by decide) (by decide)]

private theorem ofPath_output_ne :
    ofPath (Path.output source out) ≠ ofPath (Path.staging other out) := by
  obtain ⟨parent, name, hplace, _⟩ := exists_ofPath_output source out
  obtain ⟨parent', name', _, hplace'⟩ := exists_ofPath_output other out
  rw [hplace, hplace']
  intro heq
  have hnames := (append_inj' heq rfl).2
  have hends := congrArg (·.toList.getLast?) (List.cons.inj hnames).1
  simp [Path.outputSuffix] at hends

private theorem ofPath_staging_ne
    (h : ofPath (Path.output source out) ≠ ofPath (Path.output other out)) :
    ofPath (Path.staging source out) ≠ ofPath (Path.staging other out) := by
  obtain ⟨parent, name, hplace, hstaging⟩ := exists_ofPath_output source out
  obtain ⟨parent', name', hplace', hstaging'⟩ := exists_ofPath_output other out
  rw [hplace, hplace'] at h
  rw [hstaging, hstaging']
  intro heq
  obtain ⟨hparent, hnames⟩ := append_inj' heq rfl
  have hname : name = name' := by
    simpa [← String.toList_inj] using (List.cons.inj hnames).1
  exact h (by rw [hparent, hname])

end Place

namespace Files

variable {files files' : Files} {path text : String} {q : Place} {except : Place → Prop}

private theorem follow_eq {start : Place} {segments : List String}
    (h : files.follow start segments = .ok q) : q = segments.foldl step start := by
  induction segments generalizing start with
  | nil =>
    cases h
    rfl
  | cons segment rest ih =>
    rw [follow] at h
    split at h
    · exact ih h
    · split at h <;> cases h

private theorem place_eq (h : files.place path = .ok q) : q = Place.ofPath path := by
  unfold place at h
  split at h
  · cases h
  · exact follow_eq h

/-! ### Writing -/

/-- Whether what stands at a place stays there, apart from some places. -/
def Keeps (except : Place → Prop) (files files' : Files) : Prop :=
  ∀ q entry, ¬ except q → files.get? q = some entry → files'.get? q = some entry

namespace Keeps

private theorem refl (files : Files) : Keeps except files files := fun _ _ _ h => h

private theorem trans {files'' : Files} (h : Keeps except files files')
    (h' : Keeps except files' files'') : Keeps except files files'' :=
  fun q entry hq hget => h' q entry hq (h q entry hq hget)

private theorem mono {more : Place → Prop} (h : Keeps except files files')
    (hmore : ∀ q, except q → more q) : Keeps more files files' :=
  fun q entry hq => h q entry fun hexcept => hq (hmore q hexcept)

private theorem insert (hq : except q) (entry : FileEntry) :
    Keeps except files (files.insert q entry) := by
  intro other found hother hget
  rwa [Table.get?_insert, if_neg]
  rintro rfl
  exact hother hq

private theorem erase (hq : except q) : Keeps except files (files.erase q) := by
  intro other found hother hget
  rwa [Table.get?_erase, if_neg]
  rintro rfl
  exact hother hq

private theorem remove (hpath : except (Place.ofPath path)) :
    Keeps except files (files.remove path) := by
  unfold Files.remove
  split
  · rename_i q hplace
    exact erase (place_eq hplace ▸ hpath)
  · exact refl files

end Keeps

/-- What is done at a path is done at the place that it names. -/
private theorem eq_ok_of_bind_place {α : Type} {f : Place → Except FileFault α} {a : α}
    (h : files.place path >>= f = .ok a) : f (Place.ofPath path) = .ok a := by
  cases hplace : files.place path with
  | error fault =>
    rw [hplace] at h
    cases h
  | ok q =>
    rw [hplace] at h
    exact place_eq hplace ▸ h

private theorem makeDirectory_keeps (h : files.makeDirectory path = .ok files') :
    Keeps (fun _ => False) files files' := by
  have hmake := eq_ok_of_bind_place h
  split at hmake
  · cases hmake
  rename_i hpresent
  cases hmake
  intro other entry _ hget
  rwa [Table.get?_insert, if_neg]
  rintro rfl
  simp [isPresent, Table.contains, hget] at hpresent

private theorem makeDirectories_keeps (fuel : Nat) (files : Files) (path : String) :
    Keeps (fun _ => False) files (makeDirectories fuel files path).1 := by
  induction fuel generalizing files path with
  | zero => exact .refl files
  | succ fuel ih =>
    rw [makeDirectories]
    split
    · exact .refl files
    split
    · rename_i hmake
      exact makeDirectory_keeps hmake
    · split
      · exact .refl files
      rename_i parent _
      have hpar := ih files parent
      split
      · rename_i hparents
        rwa [hparents] at hpar
      rename_i hparents
      rw [hparents] at hpar
      split
      · rename_i hmake
        exact hpar.trans (makeDirectory_keeps hmake)
      · exact hpar
    · exact .refl files

private theorem makeParents_keeps {fault : Option FileFault}
    (h : files.makeParents path = (files', fault)) : Keeps (fun _ => False) files files' := by
  have hdirs := makeDirectories_keeps (((Path.parent? path).getD "").length + 1) files
    ((Path.parent? path).getD "")
  unfold makeParents at h
  dsimp only at h
  rwa [h] at hdirs

private theorem create_eq (h : files.create path text = .ok files') :
    files' = files.insert (Place.ofPath path) (.file text.toUTF8.toList) := by
  have hcreate := eq_ok_of_bind_place h
  split at hcreate <;> cases hcreate
  rfl

private theorem rename_eq {newPath : String} (h : files.rename path newPath = .ok files') :
    ∃ entry, files.get? (Place.ofPath path) = some entry ∧
      files' = (files.erase (Place.ofPath path)).insert (Place.ofPath newPath) entry := by
  have hrename := eq_ok_of_bind_place h
  split at hrename
  · cases hrename
  rename_i entry hentry
  have hinsert := eq_ok_of_bind_place hrename
  split at hinsert <;> cases hinsert
  exact ⟨entry, hentry, rfl⟩

end Files

/-! ### Steps -/

/-- The file that a report says is written. -/
def Report.output? (r : Report) : Option String := r.result.toOption.bind (·.output)

/-- Whether the file that a report says is written holds the target of its source. -/
def Report.kept (files : Files) (r : Report) : Bool :=
  match r.result with
  | .ok ⟨compilation, some output⟩ =>
    files.get? (Place.ofPath output) = some (.file compilation.target.json.pretty.toUTF8.toList)
  | _ => true

namespace Invocation

open Files

/-- Whether a place is that of the output of a source, or that where it is prepared. -/
def WritesAt (i : Invocation) (path : String) (q : Place) : Prop :=
  q = Place.ofPath (Path.output path i.out) ∨ q = Place.ofPath (Path.staging path i.out)

/-- Whether a compilation is that of a source. The settings, the source and the pictures are read
one after the other, from such files. -/
def Compiles (i : Invocation) (seen : Files → Prop) (path : String)
    (compilation : Compilation) : Prop :=
  ∃ first second third settings source, seen first ∧ seen second ∧ seen third ∧
    i.settings first path = .ok settings ∧ second.source path = .ok source ∧
    compile path Robot.catalog (third.pictures (settings.imageRootFor path)) settings.options
      source = .ok compilation

/-- Whether what the work on a file has come to was read from such files. -/
def Follows (i : Invocation) (seen : Files → Prop) (path : String) : Work → Prop
  | .waiting => True
  | .configured settings => ∃ files, seen files ∧ i.settings files path = .ok settings
  | .opened settings source => (∃ files, seen files ∧ i.settings files path = .ok settings) ∧
      ∃ files, seen files ∧ files.source path = .ok source
  | .compiled compilation | .housed compilation | .staged compilation =>
    i.Compiles seen path compilation
  | .finished result => ∀ built ∈ result.toOption, i.Compiles seen path built.compilation

/-- Whether what the work on a file has written is there. -/
def Stands (i : Invocation) (files : Files) (path : String) : Work → Prop
  | .staged compilation => files.get? (Place.ofPath (Path.staging path i.out)) =
      some (.file compilation.target.json.pretty.toUTF8.toList)
  | .finished result => (Report.mk path result).kept files = true ∧
      ∀ output ∈ (Report.mk path result).output?, output = Path.output path i.out
  | _ => True

variable {i : Invocation} {files files' : Files} {path : String} {work : Work} {seen : Files → Prop}

/-- What a step of the work on a source can do. -/
inductive StepsTo (i : Invocation) (path : String) : Files → Work → Files → Work → Prop
  | configure {files : Files} {settings : Settings} (h : i.settings files path = .ok settings) :
    StepsTo i path files .waiting files (.configured settings)
  | openSource {files : Files} {settings : Settings} {source : Source}
      (h : files.source path = .ok source) :
    StepsTo i path files (.configured settings) files (.opened settings source)
  | compile {files : Files} {settings : Settings} {source : Source} {compilation : Compilation}
      (h : compile path Robot.catalog (files.pictures (settings.imageRootFor path))
        settings.options source = .ok compilation) :
    StepsTo i path files (.opened settings source) files (.compiled compilation)
  | check {files : Files} {settings : Settings} {source : Source} {compilation : Compilation}
      (h : BlockScript.compile path Robot.catalog (files.pictures (settings.imageRootFor path))
        settings.options source = .ok compilation) :
    StepsTo i path files (.opened settings source) files (.finished (.ok ⟨compilation, none⟩))
  | house {files files' : Files} {compilation : Compilation}
    (h : Keeps (fun _ => False) files files') :
    StepsTo i path files (.compiled compilation) files' (.housed compilation)
  | stage {files : Files} {compilation : Compilation} :
    StepsTo i path files (.housed compilation)
    (files.insert (Place.ofPath (Path.staging path i.out))
      (.file compilation.target.json.pretty.toUTF8.toList)) (.staged compilation)
  | publish {files : Files} {compilation : Compilation} {entry : FileEntry}
      (h : files.get? (Place.ofPath (Path.staging path i.out)) = some entry) :
    StepsTo i path files (.staged compilation)
      ((files.erase (Place.ofPath (Path.staging path i.out))).insert
        (Place.ofPath (Path.output path i.out)) entry)
      (.finished (.ok ⟨compilation, some (Path.output path i.out)⟩))
  | fail {files files' : Files} {work : Work} (fault : RunFault)
      (h : Keeps (i.WritesAt path) files files') :
    StepsTo i path files work files' (.finished (.error fault))
  | rest {files : Files} {result : Except RunFault Built} :
    StepsTo i path files (.finished result) files (.finished result)

private theorem stepsTo_step (i : Invocation) (files : Files) (path : String) (work : Work) :
    i.StepsTo path files work (i.step files path work).2 (i.step files path work).1 := by
  cases work with
  | waiting =>
    rw [step]
    unfold configure
    split
    · rename_i hsettings
      exact .configure hsettings
    · exact .fail _ (.refl _)
  | configured settings =>
    rw [step]
    unfold openSource
    split
    · rename_i hsource
      exact .openSource hsource
    · exact .fail _ (.refl _)
  | opened settings source =>
    rw [step]
    unfold compileSource
    split
    · exact .fail _ (.refl _)
    rename_i hcompile
    split
    · exact .compile hcompile
    · exact .check hcompile
  | compiled compilation =>
    rw [step]
    unfold house
    split
    all_goals
      rename_i hmake
      have hkeeps := makeParents_keeps hmake
    · exact .house hkeeps
    · exact .fail _ (hkeeps.mono fun _ => False.elim)
  | housed compilation =>
    rw [step]
    unfold stage
    split
    · rename_i hcreate
      rw [create_eq hcreate]
      exact .stage
    · exact .fail _ (.refl _)
  | staged compilation =>
    rw [step]
    unfold publish
    dsimp only
    split
    · rename_i hrename
      obtain ⟨entry, hentry, rfl⟩ := rename_eq hrename
      exact .publish hentry
    · exact .fail _ (.remove (.inr rfl))
  | finished result => exact .rest

namespace StepsTo

variable {work' : Work} (h : i.StepsTo path files work files' work')

include h

/-- A step changes the output of its source and what this is prepared in, and nothing else. -/
theorem keeps : Keeps (i.WritesAt path) files files' := by
  cases h with
  | house hkeeps => exact hkeeps.mono fun _ => False.elim
  | stage => exact .insert (.inr rfl) _
  | publish => exact Keeps.trans (.erase (.inr rfl)) (.insert (.inl rfl) _)
  | fail _ hkeeps => exact hkeeps
  | _ => exact .refl _

private theorem left_le : work'.left ≤ work.left - 1 := by
  cases h <;> simp [Work.left]

private theorem follows (hseen : seen files) (hfollows : i.Follows seen path work) :
    i.Follows seen path work' := by
  cases h with
  | configure hsettings => exact ⟨files, hseen, hsettings⟩
  | openSource hsource => exact ⟨hfollows, files, hseen, hsource⟩
  | compile hcompile =>
    obtain ⟨⟨first, hfirst, hsettings⟩, second, hsecond, hsource⟩ := hfollows
    exact ⟨first, second, files, _, _, hfirst, hsecond, hseen, hsettings, hsource, hcompile⟩
  | check hcompile =>
    obtain ⟨⟨first, hfirst, hsettings⟩, second, hsecond, hsource⟩ := hfollows
    rintro _ ⟨⟩
    exact ⟨first, second, files, _, _, hfirst, hsecond, hseen, hsettings, hsource, hcompile⟩
  | house | stage | rest => exact hfollows
  | publish =>
    rintro _ ⟨⟩
    exact hfollows
  | fail => rintro _ ⟨⟩

private theorem stands (hstands : i.Stands files path work) : i.Stands files' path work' := by
  cases h with
  | configure | openSource | compile | house => trivial
  | check | fail => exact ⟨rfl, by rintro _ ⟨⟩⟩
  | stage => rw [Stands, Table.get?_insert, if_pos rfl]
  | publish hentry =>
    -- The file in which the output is prepared holds this output and not another one.
    obtain rfl := Option.some.inj (hentry.symm.trans hstands)
    refine ⟨decide_eq_true ?_, by rintro _ ⟨⟩; rfl⟩
    rw [Table.get?_insert, if_pos rfl]
  | rest => exact hstands

end StepsTo

private theorem stands_of_keeps {except : Place → Prop} (hkeeps : Keeps except files files')
    (hout : ¬ except (Place.ofPath (Path.output path i.out)))
    (hstaging : ¬ except (Place.ofPath (Path.staging path i.out)))
    (h : i.Stands files path work) : i.Stands files' path work := by
  cases work with
  | staged compilation => exact hkeeps _ _ hstaging h
  | finished result =>
    obtain ⟨hkept, houtput⟩ := h
    refine ⟨?_, houtput⟩
    unfold Report.kept at hkept ⊢
    split at hkept
    · rename_i compilation output hresult
      have hout' : output ∈ (Report.mk path result).output? := by
        rw [Report.output?, hresult]
        rfl
      obtain rfl := houtput output hout'
      exact decide_eq_true (hkeeps _ _ hout (of_decide_eq_true hkept))
    · rfl
  | _ => trivial

/-! ### Runs -/

variable {paths : List String} {k : Nat}

/-- Whether a place is one at which some source of a run has its output or prepares it. -/
def WritesAny (i : Invocation) (paths : List String) (q : Place) : Prop :=
  ∃ path ∈ paths, i.WritesAt path q

private theorem advance_of_getElem? {run : List Job × Files} {index : Nat} {job : Job}
    (h : run.1[index]? = some job) : i.advance run index =
      (run.1.set index { job with work := (i.step run.2 job.path job.work).1 },
        (i.step run.2 job.path job.work).2) := by
  rw [advance, h]

private theorem map_path_advance (i : Invocation) (run : List Job × Files) (index : Nat) :
    (i.advance run index).1.map Job.path = run.1.map Job.path := by
  cases hindex : run.1[index]? with
  | none => rw [advance, hindex]
  | some job =>
    rw [advance_of_getElem? hindex, map_set]
    obtain ⟨hlt, rfl⟩ := List.getElem?_eq_some_iff.mp hindex
    refine ext_getElem? fun j => ?_
    rw [getElem?_set]
    split
    · rename_i hj
      simp [← hj, hlt]
    · rfl

section Schedule

variable (Holds : Files → Work → Prop) (hown : ∀ files work, Holds files work →
    Holds (i.step files path work).2 (i.step files path work).1)
  (hother : ∀ j other, j ≠ k → paths[j]? = some other → ∀ files work work', Holds files work →
    Holds (i.step files other work').2 work)

include hown hother

/-- What the steps of one file and the steps of all others keep is kept by every schedule. -/
theorem exists_foldl_advance (schedule : List Nat) (run : List Job × Files)
    (hpaths : run.1.map Job.path = paths) (hjob : run.1[k]? = some ⟨path, work⟩)
    (h : Holds run.2 work) :
    ∃ work', (schedule.foldl i.advance run).1[k]? = some ⟨path, work'⟩ ∧
      Holds (schedule.foldl i.advance run).2 work' ∧ work'.left ≤ work.left - schedule.count k := by
  induction schedule generalizing run work with
  | nil => exact ⟨work, hjob, h, Nat.le_refl _⟩
  | cons index rest ih =>
    have hpaths' := (map_path_advance i run index).trans hpaths
    rw [foldl_cons]
    cases hindex : run.1[index]? with
    | none =>
      have hne : index ≠ k := by
        rintro rfl
        rw [hindex] at hjob
        cases hjob
      rw [advance, hindex, count_cons_of_ne hne]
      exact ih run hpaths hjob h
    | some job =>
      rw [advance_of_getElem? hindex] at hpaths' ⊢
      by_cases hk : index = k
      · subst hk
        obtain rfl := Option.some.inj (hindex.symm.trans hjob)
        obtain ⟨work', hjob', h', hleft⟩ := ih _ hpaths'
          (getElem?_set_self (List.getElem?_eq_some_iff.mp hindex).1) (hown _ _ h)
        refine ⟨work', hjob', h', ?_⟩
        have hstep := (i.stepsTo_step run.2 path work).left_le
        dsimp only at hleft
        rw [count_cons_self]
        omega
      · have hpath : paths[index]? = some job.path := by
          rw [← hpaths, getElem?_map, hindex]
          rfl
        rw [count_cons_of_ne hk]
        exact ih _ hpaths' ((getElem?_set_ne hk).trans hjob)
          (hother index job.path hk hpath _ _ _ h)

private theorem exists_finished (schedule : List Nat) (hpath : paths[k]? = some path)
    (h : Holds files .waiting) :
    let run := i.workOn files paths (schedule ++ finishing paths.length)
    ∃ result, run.1[k]? = some ⟨path, .finished result⟩ ∧ Holds run.2 (.finished result) := by
  have hjob : (paths.map (Job.mk · .waiting))[k]? = some ⟨path, .waiting⟩ := by
    rw [getElem?_map, hpath]
    rfl
  have hpaths : (paths.map (Job.mk · .waiting)).map Job.path = paths := by
    rw [map_map]
    exact map_id _
  obtain ⟨work, hwork, hholds, hleft⟩ := exists_foldl_advance Holds hown hother
    (schedule ++ finishing paths.length) (_, files) hpaths hjob h
  have hcount : Work.waiting.left ≤ (finishing paths.length).count k := by
    have hk : replicate Work.waiting.left k <+ finishing paths.length :=
      sublist_flatten_of_mem (mem_map_of_mem (mem_range.mpr (List.getElem?_eq_some_iff.mp hpath).1))
    simpa using hk.count_le k
  have hzero : work.left = 0 := by
    rw [count_append] at hleft
    omega
  cases work with
  | finished result => exact ⟨result, hwork, hholds⟩
  | _ => cases hzero

end Schedule

private theorem map_path_foldl_advance (i : Invocation) (schedule : List Nat)
    (run : List Job × Files) :
    (schedule.foldl i.advance run).1.map Job.path = run.1.map Job.path := by
  induction schedule generalizing run with
  | nil => rfl
  | cons index rest ih => rw [foldl_cons, ih, map_path_advance]

private theorem map_report?_workOn (i : Invocation) (files : Files) (paths : List String)
    (schedule : List Nat) :
    let run := i.workOn files paths (schedule ++ finishing paths.length)
    run.1.map Job.report? = (i.runFiles files paths schedule).1.map some := by
  intro run
  have hall : ∀ job ∈ run.1, job.report?.isSome := by
    intro job hjob
    obtain ⟨j, hj⟩ := getElem?_of_mem hjob
    have hpath : paths[j]? = some job.path := by
      have hpaths : run.1.map Job.path = _ := map_path_foldl_advance ..
      have hjpath := congrArg (Option.map Job.path) hj
      rw [← getElem?_map, hpaths, map_map] at hjpath
      simpa using hjpath
    obtain ⟨result, hresult, _⟩ := exists_finished (fun _ _ => True) (fun _ _ => id)
      (fun _ _ _ _ _ _ _ => id) schedule hpath (trivial : (fun _ _ => True) files _)
    rw [Option.some.inj (hj.symm.trans hresult)]
    rfl
  change run.1.map Job.report? = (run.1.filterMap Job.report?).map some
  generalize run.1 = jobs at hall
  induction jobs with
  | nil => rfl
  | cons job rest ih =>
    obtain ⟨hjob, hrest⟩ := forall_mem_cons.mp hall
    obtain ⟨report, hreport⟩ := Option.isSome_iff_exists.mp hjob
    rw [map_cons, filterMap_cons_some hreport, map_cons, hreport, ih hrest]

/-- After a run, the file that a report says is written is the output of its source, and it holds
the target of this source, if no other source of the run has its output at the same place. This is
so for every order of the steps, and other files may fail. The settings, the source and the pictures
are read while other outputs may be written already. -/
theorem runFiles_kept (i : Invocation) (files : Files) {paths : List String} (schedule : List Nat)
    {k : Nat} {path : String} (hpath : paths[k]? = some path)
    (hapart : ∀ j other, j ≠ k → paths[j]? = some other →
      Place.ofPath (Path.output other i.out) ≠ Place.ofPath (Path.output path i.out)) :
    let run := i.runFiles files paths schedule
    ∃ report, run.1[k]? = some report ∧ report.path = path ∧ report.kept run.2 = true ∧
      (∀ output ∈ report.output?, output = Path.output path i.out) ∧
      ∀ built ∈ report.result.toOption,
        i.Compiles (Keeps (i.WritesAny paths) files) path built.compilation := by
  let Holds (files' : Files) (work : Work) : Prop := i.Stands files' path work ∧
    i.Follows (Keeps (i.WritesAny paths) files) path work ∧ Keeps (i.WritesAny paths) files files'
  have hown files' work (h : Holds files' work) :
      Holds (i.step files' path work).2 (i.step files' path work).1 := by
    have hstep := i.stepsTo_step files' path work
    refine ⟨hstep.stands h.1, hstep.follows h.2.2 h.2.1, h.2.2.trans (hstep.keeps.mono ?_)⟩
    exact fun q hq => ⟨path, mem_of_getElem? hpath, hq⟩
  have hother j other (hj : j ≠ k) (hpath' : paths[j]? = some other) files' work work'
      (h : Holds files' work) : Holds (i.step files' other work').2 work := by
    have hkeeps := (i.stepsTo_step files' other work').keeps
    have hplace := hapart j other hj hpath'
    refine ⟨stands_of_keeps hkeeps ?_ ?_ h.1, h.2.1, h.2.2.trans (hkeeps.mono ?_)⟩
    · rintro (hq | hq)
      · exact hplace hq.symm
      · exact Place.ofPath_output_ne _ _ _ hq
    · rintro (hq | hq)
      · exact Place.ofPath_output_ne _ _ _ hq.symm
      · exact Place.ofPath_staging_ne _ _ _ hplace hq.symm
    · exact fun q hq => ⟨other, mem_of_getElem? hpath', hq⟩
  obtain ⟨result, hjob, ⟨hkept, houtput⟩, hfollows, _⟩ :=
    exists_finished Holds hown hother schedule hpath ⟨trivial, trivial, .refl _⟩
  refine ⟨⟨path, result⟩, ?_, rfl, hkept, houtput, hfollows⟩
  have hreports := congrArg (·[k]?) (map_report?_workOn i files paths schedule)
  rw [getElem?_map, hjob, getElem?_map] at hreports
  obtain ⟨report, hreport, heq⟩ := Option.map_eq_some_iff.mp hreports.symm
  rw [hreport, ← Option.some.inj heq.symm]

/-- Two sources with the same name: nothing, and a list. -/
def twoMains : Files :=
  (Files.add .empty "a/main.bot" (.file [])).add "b/main.bot" (.file "var n = [1]\n".toUTF8.toList)

/-- Next to their sources, outputs with the same name do not meet, also where both are worked on in
turns. -/
theorem runFiles_kept_twoMains :
    let run := Invocation.runFiles { command := some .build } twoMains ["a/main.bot", "b/main.bot"]
      [0, 1, 0, 1, 1, 0, 1, 0]
    run.1.map Report.output? = [some "a/main.blocks.json", some "b/main.blocks.json"] ∧
      ∃ report, run.1[0]? = some report ∧ report.kept run.2 = true := by
  refine ⟨by decide +kernel, ?_⟩
  obtain ⟨report, hreport, _, hkept, _⟩ := runFiles_kept { command := some .build } twoMains
    [0, 1, 0, 1, 1, 0, 1, 0] (rfl : ["a/main.bot", "b/main.bot"][0]? = some "a/main.bot") (by
      rintro (_ | _ | j) other hj hother
      · exact absurd rfl hj
      · obtain rfl := Option.some.inj hother
        decide
      · cases hother)
  exact ⟨report, hreport, hkept⟩

/-- In one directory one of two outputs with the same name takes the place of the other. Which one
is lost depends on the schedule, and both are reported as written. -/
theorem runFiles_lost_twoMains :
    let run (schedule : List Nat) :=
      Invocation.runFiles { command := some .build, out := some "out" }
      twoMains ["a/main.bot", "b/main.bot"] schedule
    (∀ schedule ∈ [[], [1, 1, 1, 1, 1, 1]], (run schedule).1.map Report.output? =
      [some "out/main.blocks.json", some "out/main.blocks.json"]) ∧
    (run []).1.map (Report.kept (run []).2) = [false, true] ∧
    (run [1, 1, 1, 1, 1, 1]).1.map (Report.kept (run [1, 1, 1, 1, 1, 1]).2) = [true, false] := by
  decide +kernel

end Invocation

end BlockScript
