import Blush.Lib.LastWrite
import Blush.Pipeline.Model

/-! When the stamp can be trusted: a run that skips finds the output of the current inputs if and
only if the earlier runs have left it, which neither aborted runs nor renamed templates ensure. -/
namespace Blush.Pipeline
open LastWrite Transition

/-! ## Synchronising a directory -/
section
variable {C : Type} {stage dir : Tree C} {path : String}

theorem lookup_syncFiles :
    (syncFiles stage dir).lookup path = (stage.lookup path).or (dir.lookup path) := by
  obtain ⟨entries,hnodup⟩ := stage
  show AList.lookup path (entries.foldl _ dir) = (entries.dlookup path).or _
  induction entries generalizing dir with
  | nil => rfl
  | cons file entries ih =>
    obtain ⟨hfile,hnodup⟩ := List.nodupKeys_cons.mp hnodup
    rw [List.foldl_cons,ih hnodup,lookup_insert,← Option.or_assoc]
    congr 1
    by_cases hpath : file.1 = path
    · subst hpath
      rw [List.dlookup_eq_none.mpr hfile,List.dlookup_cons_eq,if_pos rfl]
      rfl
    · rw [List.dlookup_cons_ne _ _ (Ne.symm hpath),if_neg hpath,Option.or_none]

theorem lookup_foldl_erase {D : Type} {dir : Tree D} (rels : List String) :
    (rels.foldl (fun dir rel => if rel ∈ stage then dir else dir.erase rel) dir).lookup path =
      if path ∈ rels ∧ path ∉ stage then none else dir.lookup path := by
  induction rels generalizing dir with
  | nil => simp
  | cons rel rels ih =>
    rw [List.foldl_cons,ih]
    by_cases hstage : rel ∈ stage
    · grind
    · by_cases hpath : path = rel
      · subst hpath
        simp [hstage]
      · simp [hstage,hpath,AList.lookup_erase_ne hpath]

theorem lookup_pruneFiles :
    (pruneFiles stage dir).lookup path = if path ∈ stage then dir.lookup path else none := by
  rw [pruneFiles,lookup_foldl_erase]
  by_cases hstage : path ∈ stage
  · simp [hstage]
  · by_cases hdir : path ∈ dir.keys
    · simp [hstage,hdir]
    · simp [hstage,hdir,AList.lookup_eq_none.mpr (AList.mem_keys.not.mpr hdir)]

/-- The directory ends up with the staged files, and with no others. -/
theorem files_syncDir (codegenDir : Option (Tree C)) :
    files ((syncDir stage codegenDir).getD ∅) = files stage := by
  funext path
  rw [syncDir,files,files]
  by_cases hempty : stage.entries.isEmpty
  · have hnone : ∀ path, path ∉ stage := by
      intro path hpath
      rw [AList.mem_keys,AList.keys,List.isEmpty_iff.mp hempty] at hpath
      exact absurd hpath List.not_mem_nil
    rw [if_pos hempty,AList.lookup_eq_none.mpr (hnone path)]
    cases codegenDir with
    | none => rfl
    | some dir =>
      show (pruneFiles stage dir).lookup path = none
      rw [lookup_pruneFiles,if_neg (hnone path)]
  · rw [if_neg hempty]
    show (pruneFiles stage (syncFiles stage _)).lookup path = _
    rw [lookup_pruneFiles,lookup_syncFiles]
    by_cases hstage : path ∈ stage
    · obtain ⟨content,hc⟩ := Option.isSome_iff_exists.mp (AList.lookup_isSome.mpr hstage)
      simp [hstage,hc]
    · simp [hstage,AList.lookup_eq_none.mpr hstage]

end

section
variable {C H H' : Type} [DecidableEq H'] (gen : Generators C) (md5 : Md5 C H H')
  (stampName : String)

/-- What `face-codegen` makes of the complete IDL. -/
def Generators.output (faceFile : C) (templates : Templates C) : Tree C :=
  gen.codegen faceFile (gen.idlGen faceFile) templates

/-- The two directories hold the output for the current inputs. -/
def Current (s : State C H') : Prop :=
  files s.out.idlDir = files (gen.idlGen s.inputs.faceFile) ∧
    files (s.out.codegenDir.getD ∅) = files (gen.output s.inputs.faceFile s.inputs.templates)

/-- So it is after every run that does not abort. -/
def StampSound {inputs : Inputs C} (e : Execution (step gen md5 stampName) (start inputs)) : Prop :=
  ∀ p ∈ e.steps, ∀ invocation, p.2 = .run invocation →
    ∀ s', step gen md5 stampName p.1 p.2 = some s' → s'.lastOutcome ≠ some .aborted →
      Current gen s'

/-! ## The history of the two directories -/

/-- The inputs of a run that regenerates. -/
def regenerated (p : State C H' × Act C) : Option (Inputs C) :=
  match p.2 with
  | .run (.found .succeeds) =>
    if needsRegen md5 stampName p.1.inputs p.1.out then some p.1.inputs else none
  | _ => none

/-- What a run that starts `face-idl-gen` leaves in the directory for the IDL. -/
def idlLeft (p : State C H' × Act C) : Option (Tree C) :=
  match p.2 with
  | .run (.found generation) =>
    if needsRegen md5 stampName p.1.inputs p.1.out then
      match generation with
      | .idlGenFails left => some left
      | _ => some (gen.idlGen p.1.inputs.faceFile)
    else none
  | _ => none

/-- The run that skips the generators. -/
def Skips (p : State C H' × Act C) : Prop :=
  ∃ generation, p.2 = .run (.found generation) ∧
    needsRegen md5 stampName p.1.inputs p.1.out = false

/-- The last run that started `face-idl-gen` left what it makes of the present .face file, and the
names of the templates in the last run that regenerated give the output that the present ones
give. -/
structure Reproduces (before : List (State C H' × Act C)) (inputs : Inputs C) : Prop where
  idl : ∀ left ∈ (before.filterMap (idlLeft gen md5 stampName)).getLast?,
    files left = files (gen.idlGen inputs.faceFile)
  codegen : ∀ old ∈ (before.filterMap (regenerated md5 stampName)).getLast?,
    files (gen.output inputs.faceFile old.templates) =
      files (gen.output inputs.faceFile inputs.templates)

end

section
variable {C H H' : Type} [DecidableEq H'] {gen : Generators C} {md5 : Md5 C H H'}
  {stampName : String} {inputs : Inputs C} {s s' : State C H'} {a : Act C}
  {before : List (State C H' × Act C)}

omit [DecidableEq H'] in
theorem Md5.faceFile_eq {inputs' : Inputs C} (h : md5.contentHash inputs = md5.contentHash inputs') :
    inputs.faceFile = inputs'.faceFile :=
  md5.file_injective (List.cons.inj (md5.string_injective h)).1

theorem not_needsRegen {out : OutputDir C H'} (h : needsRegen md5 stampName inputs out = false) :
    out.stamps stampName = some (md5.contentHash inputs) := by
  rw [needsRegen] at h
  split at h
  next previousHash dir hs hd => simpa [hs] using h
  · cases h

/-- A step calls the generators, or leaves the output directory as it is. -/
theorem step_cases (h : step gen md5 stampName s a = some s') :
    (s'.out = s.out ∧ regenerated md5 stampName (s,a) = none ∧
      idlLeft gen md5 stampName (s,a) = none) ∨
    ∃ generation, a = .run (.found generation) ∧
      needsRegen md5 stampName s.inputs s.out = true ∧ s'.inputs = s.inputs ∧
      s'.out = (regenerate gen md5 stampName s.inputs s.out generation).1 := by
  cases a with
  | edit inputs => cases h; exact .inl ⟨rfl,rfl,rfl⟩
  | run invocation =>
    cases h
    cases invocation with
    | notFound => exact .inl ⟨rfl,rfl,rfl⟩
    | found generation =>
      by_cases hregen : needsRegen md5 stampName s.inputs s.out
      · exact .inr ⟨generation,rfl,hregen,rfl,by simp [runPipeline,hregen]⟩
      · refine .inl ⟨by simp [runPipeline,hregen],?_,by simp [idlLeft,hregen]⟩
        cases generation <;> simp [regenerated,hregen]

theorem stamp_step (h : step gen md5 stampName s a = some s') :
    s'.out.stamps stampName =
      ((regenerated md5 stampName (s,a)).map md5.contentHash).or (s.out.stamps stampName) := by
  rcases step_cases h with ⟨hout,hnone,-⟩ | ⟨generation,rfl,hregen,-,hout⟩
  · rw [hout,hnone]; rfl
  · rw [hout]
    cases generation <;> simp [regenerate,regenerated,hregen]

theorem idlDir_step (h : step gen md5 stampName s a = some s') :
    some s'.out.idlDir = (idlLeft gen md5 stampName (s,a)).or (some s.out.idlDir) := by
  rcases step_cases h with ⟨hout,-,hnone⟩ | ⟨generation,rfl,hregen,-,hout⟩
  · rw [hout,hnone]; rfl
  · rw [hout]
    cases generation <;> simp [regenerate,idlLeft,hregen]

theorem codegenDir_step (h : step gen md5 stampName s a = some s') :
    some (files (s'.out.codegenDir.getD ∅)) =
      ((regenerated md5 stampName (s,a)).map fun old =>
        files (gen.output old.faceFile old.templates)).or
          (some (files (s.out.codegenDir.getD ∅))) := by
  rcases step_cases h with ⟨hout,hnone,-⟩ | ⟨generation,rfl,hregen,-,hout⟩
  · rw [hout,hnone]; rfl
  · rw [hout]
    cases generation with
    | succeeds => simpa [regenerate,regenerated,hregen,Generators.output] using files_syncDir _
    | _ => simp [regenerate,regenerated]

/-- A run that regenerates has started `face-idl-gen`. -/
theorem idlLeft_of_regenerated {p : State C H' × Act C} {old : Inputs C}
    (h : regenerated md5 stampName p = some old) :
    ∃ left, idlLeft gen md5 stampName p = some left := by
  rw [regenerated] at h
  split at h
  next hact =>
    split at h
    next hregen => exact ⟨gen.idlGen p.1.inputs.faceFile,by simp [idlLeft,hact,hregen]⟩
    · cases h
  · cases h

/-- Before a run that skips, the directories are current as far as the history says so. -/
theorem current_iff (hrun : Run (step gen md5 stampName) (start inputs) before s)
    (hskip : needsRegen md5 stampName s.inputs s.out = false) :
    Current gen s ↔ Reproduces gen md5 stampName before s.inputs := by
  -- the stamp tells which run regenerated last, and with which .face file
  have hstamp := get_run (fun s => s.out.stamps stampName)
    (fun p => (regenerated md5 stampName p).map md5.contentHash) (fun _ _ _ => stamp_step) hrun
  have hstart : (start inputs : State C H').out.stamps stampName = none := rfl
  rw [not_needsRegen hskip,← List.map_filterMap,List.getLast?_map,hstart,Option.or_none] at hstamp
  obtain ⟨old,hold,hhash⟩ := Option.map_eq_some_iff.mp hstamp.symm
  have hcodegen := get_run (fun s => some (files (s.out.codegenDir.getD ∅)))
    (fun p => (regenerated md5 stampName p).map fun old =>
      files (gen.output old.faceFile old.templates)) (fun _ _ _ => codegenDir_step) hrun
  rw [← List.map_filterMap,List.getLast?_map,hold] at hcodegen
  replace hcodegen : _ = files (gen.output old.faceFile old.templates) := Option.some.inj hcodegen
  rw [Md5.faceFile_eq hhash] at hcodegen
  obtain ⟨left,hleft⟩ : ∃ left,
      (before.filterMap (idlLeft gen md5 stampName)).getLast? = some left := by
    obtain ⟨p,hp,hreg⟩ := List.mem_filterMap.mp (List.mem_of_getLast? hold)
    obtain ⟨left,hl⟩ := idlLeft_of_regenerated hreg
    exact ⟨_,List.getLast?_eq_some_getLast (List.ne_nil_of_mem (List.mem_filterMap.mpr ⟨p,hp,hl⟩))⟩
  have hidl := get_run (fun s => some s.out.idlDir) (idlLeft gen md5 stampName)
    (fun _ _ _ => idlDir_step) hrun
  rw [hleft] at hidl
  obtain rfl : s.out.idlDir = left := Option.some.inj hidl
  constructor
  · intro h
    refine ⟨fun left' hl => ?_,fun old' ho => ?_⟩
    · obtain rfl : s.out.idlDir = left' := Option.some.inj (hleft.symm.trans hl)
      exact h.1
    · obtain rfl : old = old' := Option.some.inj (hold.symm.trans ho)
      exact hcodegen.symm.trans h.2
  · intro h
    exact ⟨h.idl _ hleft,hcodegen.trans (h.codegen old hold)⟩

omit [DecidableEq H'] in
theorem current_of_regenerate (hinputs : s'.inputs = s.inputs)
    (hout : s'.out = (regenerate gen md5 stampName s.inputs s.out .succeeds).1) :
    Current gen s' := by
  rw [Current,hout,hinputs]
  exact ⟨rfl,files_syncDir _⟩

/-- The output is current after every run that does not abort if and only if every run that skips
comes after runs that have left the present output. -/
theorem stampSound_iff (e : Execution (step gen md5 stampName) (start inputs)) :
    StampSound gen md5 stampName e ↔
      ∀ before p after, e.steps = before ++ p::after → Skips md5 stampName p →
        Reproduces gen md5 stampName before p.1.inputs := by
  constructor
  · rintro h before ⟨s,a⟩ after he ⟨generation,rfl,hskip⟩
    refine (current_iff (e.run_before he) hskip).mp ?_
    have hcurrent := h (s,.run (.found generation)) (by simp [he]) _ rfl _ rfl
    simpa [runPipeline,hskip,Current] using hcurrent
  · rintro h ⟨s,a⟩ hp invocation rfl s' hs hfinished
    obtain ⟨before,after,he,hrun⟩ := e.split hp
    cases hs
    cases invocation with
    | notFound => exact absurd rfl hfinished
    | found generation =>
      by_cases hregen : needsRegen md5 stampName s.inputs s.out
      · cases generation with
        | succeeds => exact current_of_regenerate (s:=s) rfl (congrArg Prod.fst (if_pos hregen))
        | idlGenFails left => simp [runPipeline,hregen,regenerate] at hfinished
        | codegenFails left => simp [runPipeline,hregen,regenerate] at hfinished
      · rw [Bool.not_eq_true] at hregen
        have hcurrent := (current_iff hrun hregen).mpr (h before _ after he ⟨generation,rfl,hregen⟩)
        simpa [runPipeline,hregen,Current] using hcurrent

end

/-! ## Stale output -/

/-- Digests that show what they were made of. -/
def md5 : Md5 ℕ ℕ (List ℕ) := ⟨id,id,Function.injective_id,Function.injective_id⟩

/-- Generators that copy the .face file and the templates. -/
def copying : Generators ℕ where
  idlGen faceFile := AList.singleton "model.idl" faceFile
  codegen _ _ templates := templates.files.foldl (fun dir f => dir.insert f.1 f.2) ∅

/-- A .face file with one template. -/
def oneTemplate (faceFile : ℕ) (name : String) : Inputs ℕ :=
  ⟨faceFile,⟨[(name,7)],List.pairwise_singleton _ _⟩⟩

/-- The .face file is changed, the run aborts in `face-codegen`, and the change is undone. -/
def undoneRun : Execution (step copying md5 "stamp") (start (oneTemplate 0 "a.vm")) :=
  .ofLabels [.run (.found .succeeds),.edit (oneTemplate 1 "a.vm"),.run (.found (.codegenFails ∅)),
    .edit (oneTemplate 0 "a.vm"),.run (.found .succeeds)] (by decide)

/-- The template is renamed. -/
def renamedRun : Execution (step copying md5 "stamp") (start (oneTemplate 0 "a.vm")) :=
  .ofLabels [.run (.found .succeeds),.edit (oneTemplate 0 "b.vm"),.run (.found .succeeds)]
    (by decide)

/-- The last run of each skips, and the IDL is that of the undone change, or the template's file has
its old name. -/
theorem stale_after_skip :
    ¬StampSound copying md5 "stamp" undoneRun ∧ ¬StampSound copying md5 "stamp" renamedRun := by
  constructor
  · intro h
    have hp := List.get_mem undoneRun.steps ⟨4,by decide⟩
    have hidl := (h _ hp _ rfl _ rfl (by decide)).1
    exact absurd (congrFun hidl "model.idl") (by decide)
  · intro h
    have hp := List.get_mem renamedRun.steps ⟨2,by decide⟩
    have hcodegen := (h _ hp _ rfl _ rfl (by decide)).2
    exact absurd (congrFun hcodegen "b.vm") (by decide)

end Blush.Pipeline
