import Mathlib.Data.List.AList
import Blush.Lib.Transition

/-! `_blush_run_face_codegen_pipeline`: it runs two generators into an output directory and skips
them when a stamp says that their inputs have not changed. -/
namespace Blush.Pipeline

/-- The files of a directory by their paths in it. -/
abbrev Tree (C : Type) := AList fun _ : String => C

/-- The contents at the paths of a directory. -/
def files {C : Type} (tree : Tree C) (path : String) : Option C := tree.lookup path

/-- The files below `TEMPLATE_DIR`, in the order of `file(GLOB_RECURSE)`. -/
structure Templates (C : Type) where
  files : List (String × C)
  sorted : files.Pairwise fun a b => a.1 < b.1

/-- What the generators read. -/
structure Inputs (C : Type) where
  faceFile : C
  templates : Templates C

/-- The output of `face-idl-gen` for a .face file, and the output of `face-codegen` for a .face
file, the directory with the IDL and the templates. -/
structure Generators (C : Type) where
  idlGen : C → Tree C
  codegen : C → Tree C → Templates C → Tree C

/-- `file(MD5)` and `string(MD5)`, without collisions; `H` are the digests of files. -/
structure Md5 (C H H' : Type) where
  file : C → H
  string : List H → H'
  file_injective : Function.Injective file
  string_injective : Function.Injective string

/-- `content_hash`. -/
def Md5.contentHash {C H H' : Type} (md5 : Md5 C H H') (inputs : Inputs C) : H' :=
  md5.string (md5.file inputs.faceFile :: inputs.templates.files.map fun f => md5.file f.2)

/-- `OUTPUT_DIR`. -/
structure OutputDir (C H : Type) where
  idlDir : Tree C
  codegenStage : Tree C
  codegenDir : Option (Tree C)
  stamps : String → Option H

/-- How the two generators end; one that fails leaves some files behind. -/
inductive Generation (C : Type)
  | idlGenFails (left : Tree C)
  | codegenFails (left : Tree C)
  | succeeds

/-- Whether `find_program` finds the generators, and what they do if they are called. -/
inductive Invocation (C : Type)
  | notFound
  | found (generation : Generation C)

inductive Outcome
  | aborted
  | skipped
  | regenerated
  deriving DecidableEq

section
variable {C : Type} (stage dir : Tree C)

/-- The loop that copies the staged files. -/
def syncFiles : Tree C := stage.entries.foldl (fun dir file => dir.insert file.1 file.2) dir

/-- The loop that removes what was not staged. -/
def pruneFiles : Tree C :=
  dir.keys.foldl (fun dir rel => if rel ∈ stage then dir else dir.erase rel) dir

end

section
variable {C H H' : Type} [DecidableEq H'] (gen : Generators C) (md5 : Md5 C H H')
  (stampName : String) (inputs : Inputs C)

/-- `codegen_dir` after the two loops; the first staged file creates it. -/
def syncDir (stage : Tree C) (codegenDir : Option (Tree C)) : Option (Tree C) :=
  let synced := if stage.entries.isEmpty then codegenDir
    else some (syncFiles stage (codegenDir.getD ∅))
  synced.map (pruneFiles stage)

def needsRegen (out : OutputDir C H') : Bool :=
  match out.stamps stampName,out.codegenDir with
  | some previousHash,some _ => previousHash ≠ md5.contentHash inputs
  | _,_ => true

/-- The body of `if(needs_regen)`. -/
def regenerate (out : OutputDir C H') : Generation C → OutputDir C H' × Outcome
  | .idlGenFails left => ({ out with idlDir := left, codegenStage := ∅ },.aborted)
  | .codegenFails left =>
    ({ out with idlDir := gen.idlGen inputs.faceFile, codegenStage := left },.aborted)
  | .succeeds =>
    let idlDir := gen.idlGen inputs.faceFile
    let stage := gen.codegen inputs.faceFile idlDir inputs.templates
    ({ idlDir,
       codegenStage := stage
       codegenDir := syncDir stage out.codegenDir
       stamps := Function.update out.stamps stampName (some (md5.contentHash inputs)) },
     .regenerated)

def runPipeline (out : OutputDir C H') : Invocation C → OutputDir C H' × Outcome
  | .notFound => (out,.aborted)
  | .found generation =>
    if needsRegen md5 stampName inputs out then
      regenerate gen md5 stampName inputs out generation
    else (out,.skipped)

/-- One caller: its inputs, its output directory and how its last run ended. -/
structure State (C H : Type) where
  inputs : Inputs C
  out : OutputDir C H
  lastOutcome : Option Outcome

inductive Act (C : Type)
  | edit (inputs : Inputs C)
  | run (invocation : Invocation C)

def step (s : State C H') : Act C → Option (State C H')
  | .edit inputs => some { s with inputs }
  | .run invocation =>
    let result := runPipeline gen md5 stampName s.inputs s.out invocation
    some { s with out := result.1, lastOutcome := some result.2 }

/-- Nothing has been generated. -/
def start : State C H' := ⟨inputs,⟨∅,∅,none,fun _ => none⟩,none⟩

end
end Blush.Pipeline
