import PocketCompiler.Proofs.FinalNewline

/-!
# Runs of the program

What a run puts out is what the text of its input compiles to, taken as it is.

* `Job.Reads`, `Job.Compiles` and `Job.Delivers` say what has to go well: the input is a text, the
  text compiles, and the assembly can be put where it is wanted.
* `Job.Diagnosis` has a case for each of these that does not.
* `run_delivers_or_diagnoses`: if all goes well the run delivers.  Otherwise it says what does not,
  and leaves the files alone.

Files are those of any `FileSystem`.
-/

namespace PocketCompiler.CommandLine

variable {σ : Type} [FileSystem σ] {job : Job} {stdin : Bytes} {files after : σ}

/-! ### Bytes and texts -/

theorem textOf?_eq_some_iff {bytes : Bytes} {text : String} :
    textOf? bytes = some text ↔ bytes = bytesOf text := by
  unfold textOf? bytesOf String.fromUTF8?
  constructor
  · intro h
    split at h
    · rw [← Option.some.inj h]
      rfl
    · exact nomatch h
  · rintro rfl
    exact dif_pos text.isValidUTF8

/-- A text is told by its bytes. -/
theorem bytesOf_injective : Function.Injective bytesOf := by
  intro text text' h
  have htext := textOf?_eq_some_iff.2 h
  rw [textOf?_eq_some_iff.2 rfl] at htext
  exact Option.some.inj htext

/-! ### What a job asks for -/

/-- The input can be read, and its bytes are `text` in UTF-8. -/
def Job.Reads (job : Job) (stdin : Bytes) (files : σ) (text : String) : Prop :=
  inputBytes stdin files job.input = .ok (bytesOf text)

/-- The source that the input is if it holds `text`. -/
def Job.source (job : Job) (text : String) : Source := ⟨job.input, text⟩

/-- The input is a text that compiles to `asm`, just as it is. -/
def Job.Compiles (job : Job) (stdin : Bytes) (files : σ) (asm : String) : Prop :=
  ∃ text listing, job.Reads stdin files text ∧ (job.source text).compile = .ok listing
    ∧ listing.text = asm

/-- The assembly `asm` can be put where the job wants it, and then the files are `after`. -/
def Job.Delivers (job : Job) (files : σ) (asm : String) (after : σ) : Prop :=
  match job.output with
  | none => after = files
  | some path => FileSystem.write files path (bytesOf asm) = .ok after

/-- From `files` to `after`, the file that `path` leads to has been set to `bytes`, and no other
file has changed. -/
def Replaces (files : σ) (path : String) (bytes : Bytes) (after : σ) : Prop :=
  ∃ place, FileSystem.place? files path = some place
    ∧ FileSystem.contents after place = some bytes
    ∧ ∀ other, other ≠ place → FileSystem.contents after other = FileSystem.contents files other

/-- Why a job cannot be done, as it is told. -/
inductive Job.Diagnosis (job : Job) (stdin : Bytes) (files : σ) : (message : String) → Prop
  /-- The input cannot be read. -/
  | unread {cause : FileCause} (h : inputBytes stdin files job.input = .error cause) :
    Diagnosis job stdin files (FileFailure.cannotOpen job.input cause).message
  /-- The input is no text. -/
  | noText {bytes : Bytes} (h : inputBytes stdin files job.input = .ok bytes)
      (hbytes : ∀ text, bytes ≠ bytesOf text) :
    Diagnosis job stdin files (FileFailure.cannotOpen job.input .notText).message
  /-- The text does not compile as it is.  What is wrong with it is shown in the text with a newline
  at its end. -/
  | complaint {text : String} {loc : Nat} {cause : Complaint} (htext : job.Reads stdin files text)
      (h : (job.source text).compile = .error (.complaint loc cause)) :
    Diagnosis job stdin files ((job.source text).terminated.reportAt
      ((job.source text).placeIn (job.source text).terminated loc) cause.message).render
  /-- The assembly cannot be written. -/
  | unwritten {asm path : String} {cause : FileCause} (hasm : job.Compiles stdin files asm)
      (hpath : job.output = some path)
      (h : FileSystem.write files path (bytesOf asm) = .error cause) :
    Diagnosis job stdin files (FileFailure.cannotWrite path cause).message

theorem FileFailure.message_ne_empty (failure : FileFailure) : failure.message ≠ "" := by
  cases failure <;> simp [message, String.append_eq_empty_iff]

theorem Job.Diagnosis.ne_empty {message : String} (h : job.Diagnosis stdin files message) :
    message ≠ "" := by
  cases h with
  | complaint => simp [Report.render, String.append_eq_empty_iff]
  | _ => exact FileFailure.message_ne_empty _

/-! ### Making the assembly -/

theorem Job.sourceOf_bytesOf (job : Job) (text : String) :
    sourceOf job.input (bytesOf text) = .ok (job.source text).terminated := by
  rw [sourceOf, textOf?_eq_some_iff.2 rfl]
  rfl

theorem sourceOf_of_not_text {bytes : Bytes} (name : String) (h : ∀ text, bytes ≠ bytesOf text) :
    sourceOf name bytes = .error (.cannotOpen name .notText) := by
  have hnone : textOf? bytes = none :=
    Option.eq_none_iff_forall_ne_some.2 fun text htext => h text (textOf?_eq_some_iff.1 htext)
  rw [sourceOf, hnone]

/-- **What is assembled is what the text compiles to as it is**, and what is wrong with it is shown
in the text with a newline at its end. -/
theorem Job.assemble_text (job : Job) (text : String) :
    assemble job.input (.ok (bytesOf text)) = match (job.source text).compile with
      | .ok listing => .ok listing.text
      | .error failure => .error ((job.source text).terminated.explain
        (failure.moved ((job.source text).placeIn (job.source text).terminated))) := by
  rw [assemble, job.sourceOf_bytesOf]
  dsimp only
  rw [Source.compile_terminated]
  cases (job.source text).compile <;> rfl

theorem Job.Compiles.assemble {asm : String} (h : job.Compiles stdin files asm) :
    assemble job.input (inputBytes stdin files job.input) = .ok asm := by
  obtain ⟨text, listing, htext, hcompile, rfl⟩ := h
  rw [htext, job.assemble_text, hcompile]

theorem Job.compiles_or_diagnosis (job : Job) (stdin : Bytes) (files : σ) :
    (∃ asm, job.Compiles stdin files asm)
      ∨ ∃ message, job.Diagnosis stdin files message
        ∧ assemble job.input (inputBytes stdin files job.input) = .error message := by
  cases hbytes : inputBytes stdin files job.input with
  | error cause => exact .inr ⟨_, .unread hbytes, rfl⟩
  | ok bytes =>
    by_cases htext : ∃ text, bytes = bytesOf text
    · obtain ⟨text, rfl⟩ := htext
      have hassemble := job.assemble_text text
      cases hcompile : (job.source text).compile with
      | ok listing => exact .inl ⟨_, text, listing, hbytes, hcompile, rfl⟩
      | error failure =>
        rw [hcompile] at hassemble
        cases failure with
        | complaint loc cause => exact .inr ⟨_, .complaint hbytes hcompile, hassemble⟩
        | fault cause => exact ((ends_compile _).of_eq_error hcompile).elim
    · have hnone := not_exists.1 htext
      refine .inr ⟨_, .noText hbytes hnone, ?_⟩
      rw [CommandLine.assemble, sourceOf_of_not_text _ hnone]

/-! ### Runs -/

theorem run_of_request {arguments : List String} (h : request arguments = .ok (.compile job))
    (stdin : Bytes) (files : σ) : run arguments stdin files = job.run stdin files := by
  rw [run, h]

namespace Job

theorem run_of_compiles {asm : String} (h : job.Compiles stdin files asm) :
    job.run stdin files = deliver files job.output asm := by
  rw [run, h.assemble]

/-- **A job that can be done is done.** -/
theorem run_of_delivers {asm : String} (hasm : job.Compiles stdin files asm)
    (h : job.Delivers files asm after) :
    job.run stdin files = ⟨.success (if job.output.isNone then asm else ""), after⟩ := by
  rw [run_of_compiles hasm]
  unfold Delivers at h
  unfold deliver
  split at h
  · next hnone => rw [hnone, h]; rfl
  · next path hpath => simp [hpath, h]

/-- **A job that cannot be done is diagnosed.** -/
theorem exists_diagnosis
    (h : ¬ ∃ asm after, job.Compiles stdin files asm ∧ job.Delivers files asm after) :
    ∃ message, job.Diagnosis stdin files message
      ∧ job.run stdin files = ⟨.failure message, files⟩ := by
  rcases job.compiles_or_diagnosis stdin files with ⟨asm, hasm⟩ | ⟨message, hmessage, hassemble⟩
  · rw [run_of_compiles hasm]
    unfold deliver
    split
    · next hnone => exact absurd ⟨asm, files, hasm, by rw [Delivers, hnone]⟩ h
    · next path hpath =>
      cases hwrite : FileSystem.write files path (bytesOf asm) with
      | ok after => exact absurd ⟨asm, after, hasm, by rw [Delivers, hpath]; exact hwrite⟩ h
      | error cause => exact ⟨_, .unwritten hasm hpath hwrite, rfl⟩
  · exact ⟨message, hmessage, by rw [run, hassemble]⟩

end Job

/-- **Runs deliver what compiling gives, or say why there is nothing to deliver.**

* If the input is a text that compiles as it is, and its assembly can be put where it is wanted, the
  run ends well.  Without an output the assembly is all that is printed, and no file changes.  With
  one nothing is printed, and the file that the output leads to holds the assembly; no other file
  changes.
* In every other case the run fails, prints nothing but a diagnosis among the errors, and leaves the
  files as they are.
* The newline that is added to a text without one makes no difference: there is the same assembly,
  or the same complaint, at the same place unless that is the end. -/
theorem run_delivers_or_diagnoses {arguments : List String} {job : Job}
    (h : request arguments = .ok (.compile job)) (stdin : Bytes) (files : σ) :
    let outcome := run arguments stdin files
    (∀ asm after, job.Compiles stdin files asm → job.Delivers files asm after →
        outcome.ending.status = 0 ∧ outcome.ending.errors = "" ∧ outcome.files = after
          ∧ (job.output = none → outcome.ending.output = asm ∧ outcome.files = files)
          ∧ ∀ path, job.output = some path →
            outcome.ending.output = "" ∧ Replaces files path (bytesOf asm) outcome.files)
      ∧ ((¬ ∃ asm after, job.Compiles stdin files asm ∧ job.Delivers files asm after) →
        outcome.ending.status = 1 ∧ outcome.ending.output = "" ∧ outcome.files = files
          ∧ ∃ message, job.Diagnosis stdin files message ∧ message ≠ ""
            ∧ outcome.ending.errors = message ++ "\n")
      ∧ ∀ source : Source,
        (∃ listing, source.compile = .ok listing ∧ source.terminated.compile = .ok listing)
          ∨ ∃ loc cause, source.compile = .error (.complaint loc cause)
            ∧ source.terminated.compile
              = .error (.complaint (source.placeIn source.terminated loc) cause) := by
  intro outcome
  have hrun : outcome = job.run stdin files := run_of_request h stdin files
  refine ⟨fun asm after hasm hafter => ?_, fun hnone => ?_, fun source => ?_⟩
  -- The assembly goes to the file, if one is named, and else to the output.
  · rw [hrun, Job.run_of_delivers hasm hafter]
    refine ⟨rfl, rfl, rfl, fun hnone => ?_, fun path hpath => ?_⟩
    · rw [Job.Delivers, hnone] at hafter
      rw [hnone]
      exact ⟨rfl, hafter⟩
    · rw [Job.Delivers, hpath] at hafter
      rw [hpath]
      exact ⟨rfl, FileSystem.contents_of_write hafter⟩
  · obtain ⟨message, hmessage, hfails⟩ := Job.exists_diagnosis hnone
    rw [hrun, hfails]
    exact ⟨rfl, rfl, rfl, message, hmessage, hmessage.ne_empty, rfl⟩
  · exact source.compile_and_terminated

/-- A file that ends in a comment without a newline, one that is cut off, and one to write to. -/
def Directory.unterminated : Directory :=
  [("last.go", bytesOf "var x int; // last"), ("cut.go", bytesOf "var x"), ("out.s", [0])]

theorem run_delivers_or_diagnoses_unterminated :
    let files := Directory.unterminated
    let asm := ".intel_syntax noprefix\n    .data\n    .globl x\nx:\n    .zero 8\n"
    let done := run ["last.go", "-oout.s"] [] files
    let failed := run ["--", "cut.go"] [] files
    request ["last.go", "-oout.s"] = .ok (.compile ⟨"last.go", some "out.s"⟩)
      ∧ request ["--", "cut.go"] = .ok (.compile ⟨"cut.go", none⟩)
      ∧ done.ending.status = 0 ∧ done.ending.output = ""
      ∧ Replaces files "out.s" (bytesOf asm) done.files
      ∧ failed.ending.status = 1 ∧ failed.ending.output = "" ∧ failed.files = files
      ∧ failed.ending.errors = "cut.go:2: \n          ^ expected a type, but got \"EOF\"\n" := by
  intro files asm done failed
  have hdone : request ["last.go", "-oout.s"] = .ok (.compile ⟨"last.go", some "out.s"⟩) := by
    decide +kernel
  have hfailed : request ["--", "cut.go"] = .ok (.compile ⟨"cut.go", none⟩) := by decide +kernel
  have hlast : (⟨"last.go", some "out.s"⟩ : Job).Compiles [] files asm := by
    have hcompile : (Job.source ⟨"last.go", some "out.s"⟩
        "var x int; // last").compile.toOption.map Listing.text = some asm := by decide +kernel
    have hreads : (⟨"last.go", some "out.s"⟩ : Job).Reads [] files "var x int; // last" := by
      unfold Job.Reads
      decide +kernel
    obtain ⟨listing, hlisting, htext⟩ := Option.map_eq_some_iff.1 hcompile
    exact ⟨_, listing, hreads, eq_ok_of_toOption_eq_some hlisting, htext⟩
  have hcut : (Job.source ⟨"cut.go", none⟩ "var x").compile
      = .error (.complaint 5 (.unexpected .type "EOF")) := by decide +kernel
  have hreads : (⟨"cut.go", none⟩ : Job).Reads [] files "var x" := by
    unfold Job.Reads
    decide +kernel
  have hwrite : (⟨"last.go", some "out.s"⟩ : Job).Delivers files asm
      (files.put "out.s" (bytesOf asm)) := rfl
  have hnone : ¬ ∃ asm after, (⟨"cut.go", none⟩ : Job).Compiles [] files asm
      ∧ (⟨"cut.go", none⟩ : Job).Delivers files asm after := by
    rintro ⟨_, _, ⟨text, listing, htext, hcompile, -⟩, -⟩
    obtain rfl := bytesOf_injective (Except.ok.inj (hreads.symm.trans htext))
    exact nomatch hcut.symm.trans hcompile
  obtain ⟨hsucceeds, -, -⟩ := run_delivers_or_diagnoses hdone [] files
  obtain ⟨hstatus, -, -, -, hreplaces⟩ := hsucceeds asm _ hlast hwrite
  obtain ⟨-, hfails, -⟩ := run_delivers_or_diagnoses hfailed [] files
  obtain ⟨hstatus', houtput', hfiles', message, hmessage, -, herrors⟩ := hfails hnone
  obtain ⟨houtput, hreplaces⟩ := hreplaces "out.s" rfl
  refine ⟨hdone, hfailed, hstatus, houtput, hreplaces, hstatus', houtput', hfiles', ?_⟩
  rw [herrors]
  cases hmessage with
  | unread h => exact nomatch hreads.symm.trans h
  | noText h hbytes => exact absurd (Except.ok.inj (h.symm.trans hreads)) (hbytes _)
  | unwritten hasm hpath => exact nomatch hpath
  | complaint htext hcompile =>
    obtain rfl := bytesOf_injective (Except.ok.inj (hreads.symm.trans htext))
    obtain ⟨rfl, rfl⟩ := Failure.complaint.inj (Except.error.inj (hcut.symm.trans hcompile))
    decide +kernel

end PocketCompiler.CommandLine
