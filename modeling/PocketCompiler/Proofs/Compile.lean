import PocketCompiler.Compile
import PocketCompiler.Proofs.Grammar.Unit
import PocketCompiler.Proofs.Token.Offsets

/-!
# Compiling ends in assembly or in a complaint

The tokens of a source are honest, the program that is read from honest tokens is sound, and a
sound program has assembly.  So the assembly of a program that was read is always there, and what
stops a compilation is a mistake in its source (`Source.compile_or_complain`): no fault of the
compiler is ever met, and no slice of the source fails on the way.
-/

namespace PocketCompiler

/-- A program that was read from a source is sound, and if none was read, there is a complaint. -/
theorem ends_program (source : Source) :
    Ends source.program Program.Sound Failure.IsComplaint := by
  have htokenize : Ends source.tokenize (fun tokens => ∀ token ∈ tokens, token.Of source)
      Failure.IsComplaint := by
    refine (ends_tokenize source).imp (fun _ htokens => htokens) ?_
    rintro failure ⟨loc, c, cs, cause, -, -, rfl⟩
    trivial
  refine htokenize.bind fun tokens htokens => (ends_parse source tokens).imp_good ?_
  exact fun program hsound => hsound fun token htoken => (htokens token htoken).faithful.honest

theorem ends_compile (source : Source) :
    Ends source.compile (fun _ => True) Failure.IsComplaint := by
  refine (ends_program source).bind fun program hsound => ?_
  obtain ⟨listing, hlisting⟩ := hsound.exists_lower
  rw [hlisting]
  trivial

/-- A stretch of a text is no longer than the text. -/
theorem length_le_of_slice? {start length : Nat} {text middle : List Char}
    (h : slice? start length text = some middle) : length ≤ byteLength text := by
  unfold slice? at h
  simp only at h
  split at h
  · next hlengths =>
    have hmiddle := congrArg byteLength (cutAt_append length (cutAt start text).2)
    have htext := congrArg byteLength (cutAt_append start text)
    rw [byteLength_append] at hmiddle htext
    omega
  · exact nomatch h

/-- The type of a literal is an array whose size is a word if that of the source is. -/
theorem Token.Of.arrayOf {source : Source} {token : Token} (h : token.Of source)
    (hsource : Word.Fits source.byteSize) {bytes : List UInt8} {ty : Ty}
    (hkind : token.kind = .string (some bytes) (some ty)) :
    Ty.arrayOf .char bytes.length = .ok ty := by
  have hty : ty = .array .char bytes.length := by
    have hhonest := h.faithful.honest
    unfold Token.Honest at hhonest
    rw [hkind] at hhonest
    exact hhonest
  have hbytes : bytes.length ≤ token.length := by
    have hle := h.faithful.bytes_le
    unfold Token.literalBytes at hle
    rw [hkind] at hle
    exact hle
  have hlength : token.length ≤ source.byteSize := by
    rw [Source.byteSize, ← byteLength_toList]
    exact length_le_of_slice? h.slice
  have hfits : Word.Fits (Ty.char.size * bytes.length) := by
    simp only [Word.Fits, Word.least, Word.greatest, Ty.size] at hsource ⊢
    omega
  rw [Ty.arrayOf, Word.mul, Word.checked_of_fits hfits, hty]
  rfl

/-- **Every source compiles to assembly or to a complaint about a place in it.**  The complaint is
reported by byte offsets without a slice that fails, and so is the source cut into tokens: the lexer
by byte offsets gives what the lexer gives, and a complaint of it is about a place that it comes to.
Every token is a stretch of the source, and the lengths of literals are words if the number of bytes
of the source is one. -/
theorem Source.compile_or_complain (source : Source) :
    ((∃ listing, source.compile = .ok listing)
        ∨ ∃ loc cause, source.compile = .error (.complaint loc cause)
          ∧ source.reportByOffsets? loc cause.message = some (source.reportAt loc cause.message))
      ∧ source.tokenizeByOffsets? = some source.tokenize
      ∧ (∀ failure, source.tokenize = .error failure → failure.FoundIn source)
      ∧ ∀ tokens, source.tokenize = .ok tokens → ∀ token ∈ tokens,
          slice? token.loc token.length source.text.toList = some token.text.toList
            ∧ ∀ bytes ty, token.kind = .string (some bytes) (some ty) →
                Word.Fits source.byteSize → Ty.arrayOf .char bytes.length = .ok ty := by
  refine ⟨?_, source.tokenizeByOffsets?_eq, ?_, ?_⟩
  · have hends := ends_compile source
    cases hcompile : source.compile with
    | ok listing => exact Or.inl ⟨listing, rfl⟩
    | error failure =>
      cases failure with
      | complaint loc cause =>
        obtain ⟨full, column, rest, tail, haround⟩ := source.exists_around loc
        exact Or.inr ⟨loc, cause, rfl, haround.reportByOffsets?_eq cause.message⟩
      -- No failure of a compilation is a fault.
      | fault cause => exact (hends.of_eq_error hcompile).elim
  · intro failure hfailure
    exact (ends_tokenize source).of_eq_error hfailure
  · intro tokens htokens token htoken
    have hof := (ends_tokenize source).of_eq_ok htokens token htoken
    exact ⟨hof.slice, fun bytes ty hkind hsource => hof.arrayOf hsource hkind⟩

end PocketCompiler
