import PocketCompiler.Grammar.Declarator
import PocketCompiler.Proofs.Grammar.State

/-!
# Declared types have sizes that code can address

A type that is read from honest tokens is `Ty.Sized`: its size is not negative, since the lengths of
arrays are numbers without a sign, and at most `maxObjectSize`, since every array is checked when it
is made.  The check comes first, so making the array cannot fail, whatever its length is.
-/

namespace PocketCompiler

theorem Ty.sized_int : Ty.Sized .int := by decide

theorem Ty.sized_char : Ty.Sized .char := by decide

theorem Ty.sized_ptr (base : Ty) : Ty.Sized (.ptr base) := by
  rw [Ty.Sized, Ty.size]
  decide

theorem Ty.Sized.pointers {ty : Ty} (h : ty.Sized) (depth : Nat) : (ty.pointers depth).Sized := by
  cases depth with
  | zero => exact h
  | succ depth => exact sized_ptr _

theorem Ty.Sized.decay {ty : Ty} (h : ty.Sized) : ty.decay.Sized := by
  cases ty with
  | array elem len => exact sized_ptr _
  | _ => exact h

namespace Parse

variable {honest : Prop} {R : ParseState → ParseState → Prop} {s : ParseState}

theorem readsFrom_stars (hR : Steps R) (hs : s.Valid honest) :
    ReadsFrom honest R s stars fun _ _ => True := by
  unfold stars
  refine (readsFrom_collect_any hR (fun t ht => ?_) hs).bind hR fun _ t ht _ _ =>
    readsFrom_pure hR ht trivial
  refine (readsFrom_accept hR ht "*").bind hR fun found u hu _ _ => ?_
  cases found with
  | true => exact readsFrom_pure hR hu trivial
  | false => exact readsFrom_pure hR hu trivial

theorem readsFrom_dimension (hR : Steps R) (hs : s.Valid honest) :
    ReadsFrom honest R s dimension? fun _ found => ∀ r ∈ found, honest → 0 ≤ r.1.toInt := by
  unfold dimension?
  refine (readsFrom_accept hR hs "[").bind hR fun opened t ht _ _ => ?_
  cases opened with
  | false => exact readsFrom_pure hR ht fun r hr => nomatch hr
  | true =>
    refine (readsFrom_number hR ht).bind hR ?_
    rintro ⟨len, loc⟩ u hu _ hlen
    refine (readsFrom_expect hR hu "]").bind hR fun _ v hv _ _ =>
      readsFrom_pure hR hv fun r hr => ?_
    obtain rfl := Option.some.inj hr
    exact hlen

theorem readsFrom_simpleType (hR : Steps R) (hs : s.Valid honest) :
    ReadsFrom honest R s simpleType fun _ ty => honest → ty.Sized := by
  unfold simpleType
  refine (readsFrom_accept hR hs "int").bind hR fun isInt t ht _ _ => ?_
  cases isInt with
  | true => exact readsFrom_pure hR ht fun _ => Ty.sized_int
  | false =>
    refine (readsFrom_accept hR ht "char").bind hR fun isChar u hu _ _ => ?_
    cases isChar with
    | true => exact readsFrom_pure hR hu fun _ => Ty.sized_char
    | false => exact readsFrom_unexpected _

/-- An array that passes the check can be made. -/
theorem readsFrom_arrayType (hR : Steps R) (hs : s.Valid honest) {elem : Ty} {len : Int64}
    (loc : Nat) (helem : honest → elem.Sized) (hlen : honest → 0 ≤ len.toInt) :
    ReadsFrom honest R s (arrayType elem len loc) fun _ ty => honest → ty.Sized := by
  unfold arrayType
  by_cases h : Word.Fits (elem.size * len.toInt) ∧ elem.size * len.toInt ≤ maxObjectSize
  · have harray : elem.arrayOf len.toInt = .ok (.array elem len.toInt) := by
      rw [Ty.arrayOf, Word.mul, Word.checked_of_fits h.1]
      rfl
    have hsized : honest → Ty.Sized (.array elem len.toInt) := by
      intro hhonest
      rw [Ty.Sized, Ty.size]
      exact ⟨Int.mul_nonneg (helem hhonest).1 (hlen hhonest), h.2⟩
    simp only [if_pos h, harray]
    exact readsFrom_liftM hR hs hsized
  · simp only [if_neg h]
    exact readsFrom_complainAt _ _

theorem readsFrom_arrayTypes (hR : Steps R) {elem : Ty} (helem : honest → elem.Sized) :
    ∀ (dimensions : List (Int64 × Nat)) (s : ParseState), s.Valid honest →
      (∀ r ∈ dimensions, honest → 0 ≤ r.1.toInt) →
        ReadsFrom honest R s (arrayTypes elem dimensions) fun _ ty => honest → ty.Sized
  | [], s, hs, _ => readsFrom_pure hR hs helem
  | (len, loc) :: inner, s, hs, h => by
    unfold arrayTypes
    have hinner : ∀ r ∈ inner, honest → 0 ≤ r.1.toInt := fun r hr => h r (List.mem_cons_of_mem _ hr)
    refine (readsFrom_arrayTypes hR helem inner s hs hinner).bind hR fun ty t ht _ hty => ?_
    exact readsFrom_arrayType hR ht loc hty (h (len, loc) List.mem_cons_self)

theorem readsFrom_type (hR : Steps R) (hs : s.Valid honest) :
    ReadsFrom honest R s type fun _ ty => honest → ty.Sized := by
  have hlasting : Lasting fun _ (r : Int64 × Nat) => honest → 0 ≤ r.1.toInt := fun _ _ _ _ h => h
  unfold type
  refine (readsFrom_collect hR hlasting (fun t ht => readsFrom_dimension hR ht) hs).bind hR
    fun dimensions t ht _ hdimensions => ?_
  refine (readsFrom_stars hR ht).bind hR fun depth u hu _ _ => ?_
  refine (readsFrom_simpleType hR hu).bind hR fun base v hv _ hbase => ?_
  have helem : honest → (base.pointers depth).Sized := fun hhonest => (hbase hhonest).pointers depth
  exact readsFrom_arrayTypes hR helem dimensions v hv hdimensions

theorem readsFrom_declaredNames (hR : Steps R) (hs : s.Valid honest) :
    ReadsFrom honest R s declaredNames fun _ _ => True := by
  have hlasting : Lasting fun (_ : Symbols) (_ : DeclaredName) => True := fun _ _ _ _ _ => trivial
  refine (readsFrom_separated hR hlasting (fun t ht => ?_) hs).imp fun _ _ _ => trivial
  unfold declaredName
  refine (readsFrom_stars hR ht).bind hR fun depth u hu _ _ => ?_
  refine (readsFrom_identifier hR hu).bind hR ?_
  rintro ⟨name, loc⟩ v hv _ _
  exact readsFrom_pure hR hv trivial

end Parse

end PocketCompiler
