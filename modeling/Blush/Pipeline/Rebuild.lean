import Blush.Lib.Stamped
import Blush.Pipeline.Stamp

/-! The times of the generated files. A staged file is copied only over a different one, so a file
of the codegen directory looks new to the targets that use it only when it has changed; the
directory for the IDL is removed and made again, and all its files look new. -/
namespace Blush.Pipeline
open LastWrite Stamped Transition
variable {C H H' : Type}

/-- The files of a directory, with the times they were written at. -/
abbrev TimedTree (C : Type) := Tree (C × ℕ)

def contents (tree : TimedTree C) (path : String) : Option C := value (tree.lookup path)

/-- The files of a directory, all written now. -/
def written (now : ℕ) (tree : Tree C) : TimedTree C where
  entries := tree.entries.map fun file => ⟨file.1,file.2,now⟩
  nodupKeys := by
    rw [List.NodupKeys,List.keys,List.map_map]
    exact tree.nodupKeys

section
variable [DecidableEq C] (now : ℕ) (stage : Tree C) (dir : TimedTree C)

/-- `configure_file` with `COPYONLY`. -/
def configureFile (rel : String) (content : C) : TimedTree C :=
  if value (dir.lookup rel) = some content then dir else dir.insert rel (content,now)

/-- The loop that copies the staged files. -/
def syncTimed : TimedTree C :=
  stage.entries.foldl (fun dir file => configureFile now dir file.1 file.2) dir

/-- The loop that removes what was not staged. -/
def pruneTimed : TimedTree C :=
  dir.keys.foldl (fun dir rel => if rel ∈ stage then dir else dir.erase rel) dir

/-- `codegen_dir` after the two loops. -/
def syncTimedDir (codegenDir : Option (TimedTree C)) : Option (TimedTree C) :=
  let synced := if stage.entries.isEmpty then codegenDir
    else some (syncTimed now stage (codegenDir.getD ∅))
  synced.map (pruneTimed stage)

end

/-- A caller and its output directory, with the times of the files. -/
structure TimedState (C H : Type) where
  inputs : Inputs C
  clock : ℕ
  idlDir : TimedTree C
  codegenStage : Tree C
  codegenDir : Option (TimedTree C)
  stamps : String → Option H
  lastOutcome : Option Outcome

section
variable [DecidableEq C] [DecidableEq H'] (gen : Generators C) (md5 : Md5 C H H')
  (stampName : String) (inputs : Inputs C)

def TimedState.needsRegen (s : TimedState C H') : Bool :=
  match s.stamps stampName,s.codegenDir with
  | some previousHash,some _ => previousHash ≠ md5.contentHash s.inputs
  | _,_ => true

/-- The body of `if(needs_regen)`. -/
def TimedState.regenerate (s : TimedState C H') : Generation C → TimedState C H'
  | .idlGenFails left =>
    { s with
      idlDir := written s.clock left
      codegenStage := ∅
      lastOutcome := some .aborted }
  | .codegenFails left =>
    { s with
      idlDir := written s.clock (gen.idlGen s.inputs.faceFile)
      codegenStage := left
      lastOutcome := some .aborted }
  | .succeeds =>
    let idlDir := gen.idlGen s.inputs.faceFile
    let stage := gen.codegen s.inputs.faceFile idlDir s.inputs.templates
    { s with
      idlDir := written s.clock idlDir
      codegenStage := stage
      codegenDir := syncTimedDir s.clock stage s.codegenDir
      stamps := Function.update s.stamps stampName (some (md5.contentHash s.inputs))
      lastOutcome := some .regenerated }

def TimedState.runPipeline (s : TimedState C H') : Invocation C → TimedState C H'
  | .notFound => { s with lastOutcome := some .aborted }
  | .found generation =>
    if s.needsRegen md5 stampName then s.regenerate gen md5 stampName generation
    else { s with lastOutcome := some .skipped }

def timedStep (s : TimedState C H') (a : Act C) : Option (TimedState C H') :=
  let s' := match a with
    | .edit inputs => { s with inputs }
    | .run invocation => s.runPipeline gen md5 stampName invocation
  some { s' with clock := s.clock+1 }

/-- Nothing has been generated. -/
def timedStart : TimedState C H' := ⟨inputs,0,∅,∅,none,fun _ => none,none⟩

/-- The files of the codegen directory. -/
def TimedState.codegenFiles (s : TimedState C H') (path : String) : Option (C × ℕ) :=
  (s.codegenDir.getD ∅).lookup path

end

/-! ## Synchronising a directory -/
section
variable {now : ℕ} {tree stage : Tree C} {dir : TimedTree C} {path : String}

theorem lookup_written :
    (written now tree).lookup path = (tree.lookup path).map fun content => (content,now) := by
  obtain ⟨entries,hnodup⟩ := tree
  show (entries.map _).dlookup path = (entries.dlookup path).map _
  clear hnodup
  induction entries with
  | nil => rfl
  | cons file entries ih =>
    obtain ⟨name,content⟩ := file
    by_cases hpath : path = name
    · subst hpath
      rw [List.map_cons,List.dlookup_cons_eq,List.dlookup_cons_eq]
      rfl
    · rw [List.map_cons,List.dlookup_cons_ne _ _ hpath,List.dlookup_cons_ne _ _ hpath,ih]

theorem contents_written : contents (written now tree) = files tree := by
  funext path
  rw [contents,lookup_written,value,Option.map_map,files]
  cases tree.lookup path <;> rfl

theorem lookup_pruneTimed :
    (pruneTimed stage dir).lookup path = if path ∈ stage then dir.lookup path else none := by
  rw [pruneTimed,lookup_foldl_erase]
  by_cases hstage : path ∈ stage
  · simp [hstage]
  · by_cases hdir : path ∈ dir.keys
    · simp [hstage,hdir]
    · simp [hstage,hdir,AList.lookup_eq_none.mpr (AList.mem_keys.not.mpr hdir)]

variable [DecidableEq C]

/-- The entry of a staged file after the copy: the old one if it has the same content. -/
def stamp (now : ℕ) (old : Option (C × ℕ)) (content : C) : C × ℕ :=
  (old.filter fun entry => entry.1 = content).getD (content,now)

theorem stamp_fst (now : ℕ) (old : Option (C × ℕ)) (content : C) :
    (stamp now old content).1 = content := by
  cases old with
  | none => rfl
  | some entry => by_cases h : entry.1 = content <;> simp [stamp,Option.filter_some,h]

theorem stamp_of_same {old : Option (C × ℕ)} {content : C} (h : value old = some content) :
    some (stamp now old content) = old := by
  obtain ⟨entry,rfl,rfl⟩ := Option.map_eq_some_iff.mp h
  simp [stamp,Option.filter_some]

theorem stamp_of_changed {old : Option (C × ℕ)} {content : C} (h : value old ≠ some content) :
    stamp now old content = (content,now) := by
  cases old with
  | none => rfl
  | some entry =>
    have hne : entry.1 ≠ content := fun he => h (congrArg some he)
    simp [stamp,Option.filter_some,hne]

theorem lookup_configureFile {rel : String} {content : C} :
    (configureFile now dir rel content).lookup path =
      if rel = path then some (stamp now (dir.lookup path) content) else dir.lookup path := by
  rw [configureFile]
  by_cases hsame : value (dir.lookup rel) = some content
  · rw [if_pos hsame]
    by_cases hpath : rel = path
    · subst hpath
      rw [if_pos rfl,stamp_of_same hsame]
    · rw [if_neg hpath]
  · rw [if_neg hsame,lookup_insert]
    by_cases hpath : rel = path
    · subst hpath
      rw [if_pos rfl,if_pos rfl,stamp_of_changed hsame]
      rfl
    · rw [if_neg hpath,if_neg hpath,Option.none_or]

theorem lookup_syncTimed :
    (syncTimed now stage dir).lookup path =
      ((stage.lookup path).map (stamp now (dir.lookup path))).or (dir.lookup path) := by
  obtain ⟨entries,hnodup⟩ := stage
  show AList.lookup path (entries.foldl _ dir) = ((entries.dlookup path).map _).or _
  induction entries generalizing dir with
  | nil => rfl
  | cons file entries ih =>
    obtain ⟨hfile,hnodup⟩ := List.nodupKeys_cons.mp hnodup
    rw [List.foldl_cons,ih hnodup,lookup_configureFile]
    by_cases hpath : file.1 = path
    · subst hpath
      rw [List.dlookup_eq_none.mpr hfile,List.dlookup_cons_eq,if_pos rfl]
      rfl
    · rw [List.dlookup_cons_ne _ _ (Ne.symm hpath),if_neg hpath]

/-- The directory ends up with the staged files; those it already had keep their times. -/
theorem lookup_syncTimedDir (codegenDir : Option (TimedTree C)) :
    ((syncTimedDir now stage codegenDir).getD ∅).lookup path =
      (stage.lookup path).map (stamp now ((codegenDir.getD ∅).lookup path)) := by
  rw [syncTimedDir]
  by_cases hempty : stage.entries.isEmpty
  · have hnone : path ∉ stage := by
      rw [AList.mem_keys,AList.keys,List.isEmpty_iff.mp hempty]
      exact List.not_mem_nil
    rw [if_pos hempty,AList.lookup_eq_none.mpr hnone]
    cases codegenDir with
    | none => rfl
    | some dir =>
      show (pruneTimed stage dir).lookup path = none
      rw [lookup_pruneTimed,if_neg hnone]
  · rw [if_neg hempty]
    show (pruneTimed stage (syncTimed now stage _)).lookup path = _
    rw [lookup_pruneTimed,lookup_syncTimed]
    by_cases hstage : path ∈ stage
    · obtain ⟨content,hc⟩ := Option.isSome_iff_exists.mp (AList.lookup_isSome.mpr hstage)
      simp [hstage,hc]
    · simp [hstage,AList.lookup_eq_none.mpr hstage]

theorem contents_syncTimedDir (codegenDir : Option (TimedTree C)) :
    contents ((syncTimedDir now stage codegenDir).getD ∅) = files stage := by
  funext path
  rw [contents,lookup_syncTimedDir,value,Option.map_map,files]
  cases stage.lookup path with
  | none => rfl
  | some content => exact congrArg some (stamp_fst ..)

end

/-! ## The plain pipeline -/

/-- The plain pipeline, which copies every staged file, in a state with the same files. -/
structure Shows (s : TimedState C H') (t : State C H') : Prop where
  inputs : t.inputs = s.inputs
  idl : files t.out.idlDir = contents s.idlDir
  stage : t.out.codegenStage = s.codegenStage
  exist : t.out.codegenDir.isSome = s.codegenDir.isSome
  codegen : files (t.out.codegenDir.getD ∅) = contents (s.codegenDir.getD ∅)
  stamps : t.out.stamps = s.stamps
  lastOutcome : t.lastOutcome = s.lastOutcome

theorem start_shows : Shows (timedStart inputs : TimedState C H') (start inputs) :=
  ⟨rfl,rfl,rfl,rfl,rfl,rfl,rfl⟩

/-! ## Runs -/
section
variable [DecidableEq C] [DecidableEq H'] {gen : Generators C} {md5 : Md5 C H H'}
  {stampName : String} {inputs : Inputs C} {s s' : TimedState C H'} {a : Act C}

/-- The time of a step that starts `face-idl-gen`. -/
def idlWritten (md5 : Md5 C H H') (stampName : String) (p : TimedState C H' × Act C) : Option ℕ :=
  match p.2 with
  | .run (.found _) => if p.1.needsRegen md5 stampName then some p.1.clock else none
  | _ => none

/-- A step calls the generators, or leaves the directories and the stamps as they are. -/
theorem timedStep_cases (h : timedStep gen md5 stampName s a = some s') :
    (s'.idlDir = s.idlDir ∧ s'.codegenDir = s.codegenDir ∧
      idlWritten md5 stampName (s,a) = none) ∨
      ∃ generation, a = .run (.found generation) ∧ s.needsRegen md5 stampName = true ∧
        s' = { s.regenerate gen md5 stampName generation with clock := s.clock+1 } := by
  obtain rfl := Option.some.inj h
  cases a with
  | edit inputs => exact .inl ⟨rfl,rfl,rfl⟩
  | run invocation =>
    cases invocation with
    | notFound => exact .inl ⟨rfl,rfl,rfl⟩
    | found generation =>
      by_cases hregen : s.needsRegen md5 stampName = true
      · exact .inr ⟨generation,rfl,hregen,by simp [TimedState.runPipeline,hregen]⟩
      · exact .inl (by simp [TimedState.runPipeline,idlWritten,hregen])

/-- The entries of the codegen directory after a step. -/
theorem codegenFiles_cases (h : timedStep gen md5 stampName s a = some s') :
    (∀ path, s'.codegenFiles path = s.codegenFiles path) ∨ ∃ stage : Tree C, ∀ path,
      s'.codegenFiles path = (stage.lookup path).map (stamp s.clock (s.codegenFiles path)) := by
  rcases timedStep_cases h with ⟨-,hdir,-⟩ | ⟨generation,-,-,rfl⟩
  · exact .inl fun path => by rw [TimedState.codegenFiles,hdir]; rfl
  · cases generation with
    | succeeds => exact .inr ⟨_,fun path => lookup_syncTimedDir _⟩
    | idlGenFails | codegenFails => exact .inl fun _ => rfl

/-- A file of the codegen directory is written exactly if its content changes. -/
theorem codegenFiles_writes :
    Writes (timedStep gen md5 stampName) TimedState.clock
      (TimedState.codegenFiles : TimedState C H' → String → Option (C × ℕ)) where
  tick h := by
    obtain rfl := Option.some.inj h
    rfl
  same {s a s' path} h hv := by
    rcases codegenFiles_cases h with hsame | ⟨stage,hstage⟩
    · exact hsame path
    · rw [hstage] at hv ⊢
      cases hc : stage.lookup path with
      | none =>
        rw [hc] at hv
        exact (Option.map_eq_none_iff.mp hv.symm).symm
      | some content =>
        rw [hc] at hv
        refine stamp_of_same (hv.symm.trans ?_)
        exact congrArg some (stamp_fst ..)
  changed {s a s' path content t} h he hne := by
    rcases codegenFiles_cases h with hsame | ⟨stage,hstage⟩
    · rw [← hsame,he] at hne
      exact absurd rfl hne
    · rw [hstage] at he
      obtain ⟨staged,-,hstamp⟩ := Option.map_eq_some_iff.mp he
      have hcontent : staged = content := (stamp_fst ..).symm.trans (congrArg Prod.fst hstamp)
      rw [stamp_of_changed (hcontent ▸ hne)] at hstamp
      exact (congrArg Prod.snd hstamp).symm

omit [DecidableEq C] in
theorem Shows.needsRegen {t : State C H'} (hs : Shows s t) :
    Pipeline.needsRegen md5 stampName t.inputs t.out = s.needsRegen md5 stampName := by
  rw [Pipeline.needsRegen,TimedState.needsRegen,hs.inputs,hs.stamps]
  have hexist := hs.exist
  cases ht : t.out.codegenDir <;> cases hd : s.codegenDir <;> simp [ht,hd] at hexist ⊢
  cases s.stamps stampName <;> rfl

omit [DecidableEq H'] in
/-- The generators are called in both, and leave the same files. -/
theorem Shows.regenerate {t : State C H'} (hs : Shows s t) (generation : Generation C) :
    Shows (s.regenerate gen md5 stampName generation)
      { t with
        out := (Pipeline.regenerate gen md5 stampName t.inputs t.out generation).1
        lastOutcome := some (Pipeline.regenerate gen md5 stampName t.inputs t.out generation).2 } := by
  cases generation with
  | idlGenFails left =>
    exact ⟨hs.inputs,contents_written.symm,rfl,hs.exist,hs.codegen,hs.stamps,rfl⟩
  | codegenFails left =>
    refine ⟨hs.inputs,?_,rfl,hs.exist,hs.codegen,hs.stamps,rfl⟩
    exact hs.inputs ▸ contents_written.symm
  | succeeds =>
    obtain ⟨hinputs,-,-,hexist,-,hstamps,-⟩ := hs
    refine ⟨hinputs,?_,?_,?_,?_,?_,rfl⟩
    · exact hinputs ▸ contents_written.symm
    · rw [Pipeline.regenerate,hinputs]
      rfl
    · simp only [Pipeline.regenerate,TimedState.regenerate,syncDir,syncTimedDir,hinputs,
        Option.isSome_map]
      split
      · exact hexist
      · rfl
    · simp only [Pipeline.regenerate,TimedState.regenerate,hinputs]
      rw [files_syncDir,contents_syncTimedDir]
    · simp only [Pipeline.regenerate,TimedState.regenerate,hinputs,hstamps]

theorem Shows.step {t : State C H'} (hs : Shows s t)
    (h : timedStep gen md5 stampName s a = some s') :
    ∃ t', Pipeline.step gen md5 stampName t a = some t' ∧ Shows s' t' := by
  obtain rfl := Option.some.inj h
  cases a with
  | edit inputs =>
    exact ⟨_,rfl,rfl,hs.idl,hs.stage,hs.exist,hs.codegen,hs.stamps,hs.lastOutcome⟩
  | run invocation =>
    refine ⟨_,rfl,?_⟩
    cases invocation with
    | notFound => exact ⟨hs.inputs,hs.idl,hs.stage,hs.exist,hs.codegen,hs.stamps,rfl⟩
    | found generation =>
      simp only [runPipeline,TimedState.runPipeline,hs.needsRegen]
      split
      · have hregen : Shows (s.regenerate gen md5 stampName generation) _ := hs.regenerate generation
        obtain ⟨hinputs,hidl,hstage,hexist,hcodegen,hstamps,houtcome⟩ := hregen
        exact ⟨hinputs,hidl,hstage,hexist,hcodegen,hstamps,houtcome⟩
      · exact ⟨hs.inputs,hs.idl,hs.stage,hs.exist,hs.codegen,hs.stamps,rfl⟩

/-- The files of the IDL directory are as old as the last step that started `face-idl-gen`. -/
theorem idl_written {steps : List (TimedState C H' × Act C)}
    (h : Run (timedStep gen md5 stampName) (timedStart inputs) steps s) {path : String}
    {content : C} {t : ℕ} (he : s.idlDir.lookup path = some (content,t)) :
    (steps.filterMap (idlWritten md5 stampName)).getLast? = some t := by
  induction h generalizing path content t with
  | refl => simp [timedStart] at he
  | @next steps s a s' _ hs ih =>
    rw [List.filterMap_append]
    rcases timedStep_cases hs with ⟨hidl,-,hnone⟩ | ⟨generation,rfl,hregen,rfl⟩
    · rw [List.filterMap_cons_none hnone,List.filterMap_nil,List.append_nil]
      exact ih (hidl ▸ he)
    · have hnow (tree : Tree C) (he : (written s.clock tree).lookup path = some (content,t)) :
          s.clock = t := by
        rw [lookup_written] at he
        obtain ⟨_,-,hentry⟩ := Option.map_eq_some_iff.mp he
        exact congrArg Prod.snd hentry
      have ht : s.clock = t := by
        cases generation with
        | idlGenFails | codegenFails | succeeds => exact hnow _ he
      simp [idlWritten,hregen,ht]

/-- What a run leaves, after steps that took one unit of time each. -/
structure Minimal (gen : Generators C) (md5 : Md5 C H H') (stampName : String) (inputs : Inputs C)
    (steps : List (TimedState C H' × Act C)) (s : TimedState C H') : Prop where
  plain : ∃ t plain, Shows s t ∧ Run (step gen md5 stampName) (start inputs) plain t ∧
    plain.map Prod.snd = steps.map Prod.snd
  codegen : ∀ path content t, s.codegenFiles path = some (content,t) → t < s.clock ∧
    Since TimedState.clock TimedState.codegenFiles (steps.map Prod.fst ++ [s]) path content t
  idl : ∀ path content t, s.idlDir.lookup path = some (content,t) →
    (steps.filterMap (idlWritten md5 stampName)).getLast? = some t

/-- Copying only what is different leaves the files that copying everything leaves, and the time of
each file of the codegen directory is that of the step since which, without a break, the file has
had its content; each file of the IDL directory has the time of the last step that made them. -/
theorem rebuild_minimal {steps : List (TimedState C H' × Act C)}
    (h : Run (timedStep gen md5 stampName) (timedStart inputs) steps s) :
    Minimal gen md5 stampName inputs steps s where
  plain := by
    have hstep : ∀ (s : TimedState C H') t a s', Shows s t →
        timedStep gen md5 stampName s a = some s' →
          ∃ t', step gen md5 stampName t a = some t' ∧ Shows s' t' := fun _ _ _ _ => Shows.step
    exact h.simulate hstep start_shows
  codegen path content t he := codegenFiles_writes.since h (fun _ => rfl) he
  idl path content t he := idl_written h he

end

/-- One template more, after which the pipeline runs again. -/
def extendedRun : Execution (timedStep copying md5 "stamp") (timedStart (oneTemplate 0 "a.vm")) :=
  .ofLabels [.run (.found .succeeds),.edit ⟨0,⟨[("a.vm",7),("b.vm",8)],by decide⟩⟩,
    .run (.found .succeeds)] (by decide)

/-- The file of the old template has the time of the first run. -/
theorem extendedRun_minimal :
    Minimal copying md5 "stamp" (oneTemplate 0 "a.vm") extendedRun.steps extendedRun.final ∧
      extendedRun.final.codegenFiles "a.vm" = some (7,0) ∧
        extendedRun.final.codegenFiles "b.vm" = some (8,2) :=
  ⟨rebuild_minimal extendedRun.run,by decide,by decide⟩

end Blush.Pipeline
