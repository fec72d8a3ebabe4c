import PocketCompiler.Proofs.Grammar.Growth

/-!
# Declarations as they are written

What tokens of a declaration say, without a reader: `TypeText text ty` says that the tokens `text`
spell the type `ty`, and `NamesText`, `ParametersText` and `HeaderText` do the same for the names of
a declaration, for parameters and for the head of a function.

Every derivation reads what is written (`Step.Yields.written`): a type, names and parameters come
from tokens that spell them.  So a function has the parameters that its head declares, in their
order, as its first locals (`ParseState.ReadsFunction.exists_headed`).
-/

namespace PocketCompiler

open Parse (DeclaredName)

/-! ### Texts -/

/-- The tokens spell a type that is no array. -/
inductive PlainText : List Token → Ty → Prop
  | int {token : Token} (h : token.reads "int" = true) : PlainText [token] .int
  | char {token : Token} (h : token.reads "char" = true) : PlainText [token] .char
  | ptr {token : Token} {text : List Token} {base : Ty} (h : token.reads "*" = true)
      (hbase : PlainText text base) : PlainText (token :: text) (.ptr base)

/-- The tokens spell a type: the dimensions of an array come in front of its elements' type. -/
inductive TypeText : List Token → Ty → Prop
  | plain {text : List Token} {ty : Ty} (h : PlainText text ty) : TypeText text ty
  | array {first last : Token} {len : Int64} {loc : Nat} {digits : String} {text : List Token}
      {elem : Ty} (hfirst : first.reads "[" = true) (hlast : last.reads "]" = true)
      (helem : TypeText text elem) :
    TypeText (first :: ⟨.number (some len), loc, digits⟩ :: last :: text) (.array elem len.toInt)

/-- The tokens spell the names of a declaration, each with its own stars. -/
inductive NamesText : List Token → List DeclaredName → Prop
  | last {stars : List Token} {loc : Nat} {name : String}
      (hstars : ∀ token ∈ stars, token.reads "*" = true) :
    NamesText (stars ++ [⟨.identifier, loc, name⟩]) [⟨name, loc, stars.length⟩]
  | more {stars text : List Token} {comma : Token} {loc : Nat} {name : String}
      {names : List DeclaredName} (hstars : ∀ token ∈ stars, token.reads "*" = true)
      (hcomma : comma.reads "," = true) (hmore : NamesText text names) :
    NamesText (stars ++ ⟨.identifier, loc, name⟩ :: comma :: text)
      (⟨name, loc, stars.length⟩ :: names)

/-- The tokens spell parameters with their types, up to the closing parenthesis. -/
inductive ParametersText : List Token → List (String × Ty) → Prop
  | last {text : List Token} {close : Token} {loc : Nat} {name : String} {ty : Ty}
      (hty : TypeText text ty) (hclose : close.reads ")" = true) :
    ParametersText (⟨.identifier, loc, name⟩ :: (text ++ [close])) [(name, ty)]
  | more {text rest : List Token} {comma : Token} {loc : Nat} {name : String} {ty : Ty}
      {declared : List (String × Ty)} (hty : TypeText text ty) (hcomma : comma.reads "," = true)
      (hmore : ParametersText rest declared) :
    ParametersText (⟨.identifier, loc, name⟩ :: (text ++ comma :: rest)) ((name, ty) :: declared)

/-- The tokens spell the parameters of a function behind its opening parenthesis. -/
inductive ParameterListText : List Token → List (String × Ty) → Prop
  | none {close : Token} (hclose : close.reads ")" = true) : ParameterListText [close] []
  | some {text : List Token} {declared : List (String × Ty)} (h : ParametersText text declared) :
    ParameterListText text declared

/-- The tokens spell the head of a function: its name, and its parameters with their types. -/
inductive HeaderText : List Token → String → List (String × Ty) → Prop
  | intro {func first : Token} {text : List Token} {loc : Nat} {name : String}
      {declared : List (String × Ty)} (hfunc : func.reads "func" = true)
      (hfirst : first.reads "(" = true) (h : ParameterListText text declared) :
    HeaderText (func :: ⟨.identifier, loc, name⟩ :: first :: text) name declared

/-- Stars in front of a type make pointers of it. -/
theorem PlainText.stars {stars text : List Token} {ty : Ty}
    (hstars : ∀ token ∈ stars, token.reads "*" = true) (h : PlainText text ty) :
    PlainText (stars ++ text) (ty.pointers stars.length) := by
  induction stars with
  | nil => exact h
  | cons token stars ih =>
    obtain ⟨htoken, hstars⟩ := List.forall_mem_cons.1 hstars
    exact .ptr htoken (ih hstars)

/-! ### Moving past tokens -/

variable {α : Type} {s t u : ParseState}

/-- `t` is `s` behind the tokens `text`, and nothing else has changed. -/
structure ParseState.Past (s : ParseState) (text : List Token) (t : ParseState) : Prop where
  rest : s.rest = text ++ t.rest
  same : t = { s with rest := t.rest }

namespace ParseState.Past

/-- Behind no tokens everything is as it was. -/
theorem refl (s : ParseState) : s.Past [] s := ⟨rfl, rfl⟩

/-- Tokens may be moved past in two parts. -/
theorem trans {first second : List Token} (h : s.Past first t) (h' : t.Past second u) :
    s.Past (first ++ second) u where
  rest := by rw [h.rest, h'.rest, List.append_assoc]
  same := by
    rw [h'.same, h.same]

theorem advance {token : Token} (h : s.current? = some token) : s.Past [token] s.advance :=
  ⟨ParseState.rest_of_current? h, rfl⟩

/-- A text that is seen is that of one token. -/
theorem of_sees {text : String} (h : s.sees text = true) :
    ∃ token, token.reads text = true ∧ s.Past [token] s.advance := by
  obtain ⟨token, hcurrent, hreads⟩ := exists_of_sees h
  exact ⟨token, hreads, advance hcurrent⟩

end ParseState.Past

/-! ### What rules read -/

/-- The array type with these dimensions, the outermost first. -/
def Ty.arrays (elem : Ty) (dimensions : List (Int64 × Nat)) : Ty :=
  dimensions.foldr (fun dimension inner => .array inner dimension.1.toInt) elem

/-- An array type that is not refused is that with the dimensions. -/
theorem Parse.eq_of_run_arrayTypes {elem ty : Ty} : ∀ {dimensions : List (Int64 × Nat)}
    {s t : ParseState}, (arrayTypes elem dimensions).run s = .ok (ty, t) →
      ty = elem.arrays dimensions := by
  intro dimensions
  induction dimensions generalizing ty with
  | nil => exact fun h => (Prod.mk.inj (Except.ok.inj h)).1.symm
  | cons first inner ih =>
    intro s t h
    rw [arrayTypes, StateT.run_bind] at h
    obtain ⟨⟨made, u⟩, hmade, hrun⟩ := bind_eq_ok_iff.1 h
    obtain rfl := ih hmade
    change (arrayType (elem.arrays inner) first.1 first.2).run u = _ at hrun
    unfold arrayType at hrun
    simp only at hrun
    split at hrun
    · cases harray : (elem.arrays inner).arrayOf first.1.toInt with
      | error fault => rw [harray] at hrun; cases hrun
      | ok array =>
        rw [harray] at hrun
        obtain ⟨-, -, hline⟩ := bind_eq_ok_iff.1 harray
        rw [← (Prod.mk.inj (Except.ok.inj hrun)).1, ← Except.ok.inj hline]
        rfl
    · cases hrun

/-- Dimensions as they are written. -/
inductive DimensionsText : List Token → List (Int64 × Nat) → Prop
  | nil : DimensionsText [] []
  | cons {first last : Token} {len : Int64} {loc : Nat} {digits : String} {text : List Token}
      {dimensions : List (Int64 × Nat)} (hfirst : first.reads "[" = true)
      (hlast : last.reads "]" = true) (h : DimensionsText text dimensions) :
    DimensionsText (first :: ⟨.number (some len), loc, digits⟩ :: last :: text)
      ((len, loc) :: dimensions)

/-- Dimensions in front of a plain type spell an array type. -/
theorem DimensionsText.type {text plain : List Token} {dimensions : List (Int64 × Nat)} {elem : Ty}
    (h : DimensionsText text dimensions) (hplain : PlainText plain elem) :
    TypeText (text ++ plain) (elem.arrays dimensions) := by
  induction h with
  | nil => exact .plain hplain
  | cons hfirst hlast _ ih => exact .array hfirst hlast ih

/-- The local that a declared parameter is. -/
def Variable.ofParameter (declared : String × Ty) : Variable :=
  { name := declared.1, ty := declared.2.decay }

/-- The index and the type of each parameter, for parameters behind `count` locals. -/
def numbered (count : Nat) (declared : List (String × Ty)) : List (Nat × Ty) :=
  (declared.zipIdx count).map fun d => (d.2, d.1.2.decay)

/-- What a rule reads is written in the tokens that it moves past. -/
def Rule.Written : {α : Type} → Rule α → ParseState → α → ParseState → Prop
  | _, .stars count, s, a, t =>
    ∃ text, s.Past text t ∧ a = count + text.length ∧ ∀ token ∈ text, token.reads "*" = true
  | _, .names read, s, a, t =>
    ∃ text names, s.Past text t ∧ a = read ++ names ∧ NamesText text names
  | _, .dimensions read, s, a, t =>
    ∃ text dimensions, s.Past text t ∧ a = read ++ dimensions ∧ DimensionsText text dimensions
  | _, .type, s, ty, t => ∃ text, s.Past text t ∧ TypeText text ty
  | _, .parameters read, s, a, t =>
    ∃ text declared, s.rest = text ++ t.rest ∧ a = read ++ numbered s.locals.length declared
      ∧ ParametersText text declared ∧ t.locals = s.locals ++ declared.map Variable.ofParameter
      ∧ a.length ≤ maxArguments
  | _, .parameterList, s, a, t =>
    ∃ text declared, s.rest = text ++ t.rest ∧ a = numbered s.locals.length declared
      ∧ ParameterListText text declared ∧ t.locals = s.locals ++ declared.map Variable.ofParameter
      ∧ a.length ≤ maxArguments
  | _, _, _, _, _ => True

/-- Every rule reads what is written. -/
def Contract.written : Contract where
  pre _ _ := True
  post rule s a t := rule.Written s a t

namespace Rule

open Step

/-- The stars of a pointer are counted as they are written. -/
theorem written_stars (count : Nat) (s : ParseState) :
    ((stars count).step s).Meets .written ((stars count).Written s) := by
  rw [step]
  refine meets_ite.2 ⟨fun hsees => ⟨trivial, ?_⟩,
    fun _ => ⟨[], .refl s, rfl, List.forall_mem_nil _⟩⟩
  rintro a t ⟨text, hpast, rfl, hstars⟩
  obtain ⟨token, htoken, hadvance⟩ := ParseState.Past.of_sees hsees
  refine ⟨token :: text, hadvance.trans hpast, ?_, List.forall_mem_cons.2 ⟨htoken, hstars⟩⟩
  rw [List.length_cons]
  omega

/-- Names are gathered in the order in which they are written. -/
theorem written_names (read : List DeclaredName) (s : ParseState) :
    ((names read).step s).Meets .written ((names read).Written s) := by
  rw [step]
  refine ⟨trivial, ?_⟩
  rintro a t ⟨stars, hpast, rfl, hstars⟩
  refine meets_identifier.2 fun name loc hcurrent =>
    meets_ite.2 ⟨fun hcomma => ⟨trivial, ?_⟩, fun _ => ?_⟩
  · rintro a u ⟨text, names, hmore, rfl, hnames⟩
    obtain ⟨comma, hreads, hadvance⟩ := ParseState.Past.of_sees hcomma
    refine ⟨_, ⟨name, loc, stars.length⟩ :: names,
      ((hpast.trans (.advance hcurrent)).trans hadvance).trans hmore, ?_, ?_⟩
    · rw [List.append_assoc, List.singleton_append, Nat.zero_add]
    · simp only [List.append_assoc, List.singleton_append]
      exact .more hstars hreads hnames
  · refine ⟨_, _, hpast.trans (.advance hcurrent), ?_, .last hstars⟩
    rw [Nat.zero_add]

/-- Dimensions are gathered in the order in which they are written. -/
theorem written_dimensions (read : List (Int64 × Nat)) (s : ParseState) :
    ((dimensions read).step s).Meets .written ((dimensions read).Written s) := by
  rw [step]
  refine meets_ite.2 ⟨fun hfirst => meets_number.2 fun len loc digits hcurrent =>
    meets_expect.2 fun hlast => ⟨trivial, ?_⟩, fun _ => ⟨[], [], .refl s, by simp, .nil⟩⟩
  rintro a t ⟨text, dimensions, hmore, rfl, htext⟩
  obtain ⟨first, hfirst, hopen⟩ := ParseState.Past.of_sees hfirst
  obtain ⟨last, hlast, hclose⟩ := ParseState.Past.of_sees hlast
  refine ⟨_, (len, loc) :: dimensions,
    ((hopen.trans (.advance hcurrent)).trans hclose).trans hmore, ?_, ?_⟩
  · rw [List.append_assoc, List.singleton_append]
  · exact .cons hfirst hlast htext

/-- The dimensions of a type stand in front of the type of the elements. -/
theorem written_type (s : ParseState) : (type.step s).Meets .written (type.Written s) := by
  rw [step]
  refine ⟨trivial, ?_⟩
  rintro found t ⟨text, read, hdimensions, hfound, htext⟩
  rw [List.nil_append] at hfound
  refine ⟨trivial, ?_⟩
  rintro depth u ⟨stars, hpast, hdepth, hstars⟩
  rw [Nat.zero_add] at hdepth
  -- The two simple types are read in the same way.
  have hbase : ∀ {token : Token} {base ty : Ty} {v : ParseState}, PlainText [token] base →
      u.Past [token] u.advance →
      (Parse.arrayTypes (base.pointers depth) found).run u.advance = .ok (ty, v) →
        type.Written s ty v := by
    intro token base ty v hplain hadvance hrun
    obtain rfl := Parse.eq_of_run_arrayTypes hrun
    obtain rfl := Parse.state_of_run_arrayTypes hrun
    refine ⟨_, (hdimensions.trans hpast).trans hadvance, ?_⟩
    rw [List.append_assoc, hfound, hdepth]
    exact htext.type (hplain.stars hstars)
  refine meets_ite.2 ⟨fun hint => meets_ofRun.2 fun ty v hrun => ?_, fun _ => meets_ite.2
    ⟨fun hchar => meets_ofRun.2 fun ty v hrun => ?_, fun _ => trivial⟩⟩
  · obtain ⟨token, hreads, hadvance⟩ := ParseState.Past.of_sees hint
    exact hbase (.int hreads) hadvance hrun
  · obtain ⟨token, hreads, hadvance⟩ := ParseState.Past.of_sees hchar
    exact hbase (.char hreads) hadvance hrun

/-- Each parameter is written with its type, and declared as a local at once. -/
theorem written_parameters (read : List (Nat × Ty)) (s : ParseState) :
    ((parameters read).step s).Meets .written ((parameters read).Written s) := by
  rw [step]
  refine meets_ite.2 ⟨fun hroom => meets_identifier.2 fun name loc hcurrent => ⟨trivial, ?_⟩,
    fun _ => trivial⟩
  rintro ty t ⟨text, hpast, htext⟩
  have hread := (ParseState.Past.advance hcurrent).trans hpast
  have hlocals : t.locals = s.locals := by rw [hread.same]
  -- The list ends behind this parameter, or a comma leads to the others.
  refine meets_ite.2 ⟨fun hclose => ?_, fun _ => meets_expect.2 fun hcomma => ⟨trivial, ?_⟩⟩
  · obtain ⟨close, hreads, hadvance⟩ := ParseState.Past.of_sees hclose
    refine ⟨⟨.identifier, loc, name⟩ :: (text ++ [close]), [(name, ty)], ?_, ?_,
      .last htext hreads, ?_, ?_⟩
    · have hrest : t.rest = close :: (t.addLocal ⟨name, ty.decay, none⟩).advance.rest :=
        hadvance.rest
      rw [hread.rest, hrest]
      simp
    · rw [hlocals]
      rfl
    · show t.locals ++ _ = _
      rw [hlocals]
      rfl
    · rw [List.length_append, List.length_singleton]
      omega
  · rintro a u ⟨rest, declared, hrest, rfl, hdeclared, hlocals', hlength⟩
    obtain ⟨comma, hreads, hadvance⟩ := ParseState.Past.of_sees hcomma
    have hbehind : t.rest = comma :: (t.addLocal ⟨name, ty.decay, none⟩).advance.rest :=
      hadvance.rest
    refine ⟨⟨.identifier, loc, name⟩ :: (text ++ comma :: rest), (name, ty) :: declared, ?_, ?_,
      .more htext hreads hdeclared, ?_, hlength⟩
    · rw [hread.rest, hbehind, hrest]
      simp
    -- The index of the parameter is the number of locals in front of it.
    · show (read ++ [(t.locals.length, ty.decay)]) ++ numbered (t.locals ++ [_]).length declared = _
      rw [List.append_assoc, hlocals, List.length_append, List.length_singleton]
      rfl
    · rw [hlocals']
      show (t.locals ++ [_]) ++ _ = _
      rw [hlocals, List.append_assoc]
      rfl

theorem written_parameterList (s : ParseState) :
    (parameterList.step s).Meets .written (parameterList.Written s) := by
  rw [step]
  refine meets_ite.2 ⟨fun hclose => ?_, fun _ => ⟨trivial, ?_⟩⟩
  · obtain ⟨close, hreads, hadvance⟩ := ParseState.Past.of_sees hclose
    exact ⟨_, [], hadvance.rest, rfl, .none hreads, (List.append_nil _).symm, Nat.zero_le _⟩
  · rintro a t ⟨text, declared, hrest, rfl, hdeclared, hlocals, hlength⟩
    exact ⟨text, declared, hrest, rfl, .some hdeclared, hlocals, hlength⟩

end Rule

/-- Every rule reads what is written in the tokens. -/
theorem Contract.holds_written : Contract.written.Holds := by
  intro α rule s _
  cases rule with
  | stars count => exact Rule.written_stars count s
  | names read => exact Rule.written_names read s
  | dimensions read => exact Rule.written_dimensions read s
  | type => exact Rule.written_type s
  | parameters read => exact Rule.written_parameters read s
  | parameterList => exact Rule.written_parameterList s
  | _ => exact Step.meets_of_forall (fun _ _ => trivial) (fun _ _ => trivial) _

/-- **What is read is written.** -/
theorem Step.Yields.written {rule : Rule α} {a : α} (h : (rule.step s).Yields a t) :
    rule.Written s a t :=
  Contract.holds_written.yields trivial h

/-! ### The heads of functions -/

/-- The parameters are the locals from the given number on. -/
theorem map_fst_numbered (count : Nat) (declared : List (String × Ty)) :
    (numbered count declared).map (·.1) = List.range' count declared.length := by
  rw [numbered, List.map_map]
  exact List.zipIdx_map_snd count declared

/-- The parameters have the types that are declared, with pointers in place of arrays. -/
theorem map_snd_numbered (count : Nat) (declared : List (String × Ty)) :
    (numbered count declared).map (·.2) = declared.map (·.2.decay) := by
  have hfst : (declared.zipIdx count).map Prod.fst = declared := List.zipIdx_map_fst count declared
  conv_rhs => rw [← hfst]
  rw [numbered, List.map_map, List.map_map]
  rfl

/-- The function has the parameters that its head declares: they are its first locals, in the order
of the declarations, and arrays among them have become pointers. -/
structure Function.Headed (f : Function) (tokens : List Token) (declared : List (String × Ty)) :
    Prop where
  header : ∃ before text after, tokens = before ++ text ++ after ∧ HeaderText text f.name declared
  arity : declared.length ≤ maxArguments
  params : f.params = List.range declared.length
  types : f.ty.paramTypes = declared.map (·.2.decay)
  locals : declared.map Variable.ofParameter <+: f.locals

/-- A function that is read has the parameters that its head declares. -/
theorem ParseState.ReadsFunction.exists_headed {tokens : List Token} {f : Function}
    (hs : s.rest <:+ tokens) (hfunc : s.sees "func" = true) (h : s.advance.ReadsFunction t)
    (hf : t.functions = s.functions ++ [f]) : ∃ declared, f.Headed tokens declared := by
  obtain @⟨name, loc, params, result, body, u, v, w, hname, hopen, hparams, hresult, hbody, -⟩ := h
  obtain ⟨func, hfunc, hpast⟩ := ParseState.Past.of_sees hfunc
  obtain ⟨first, hfirst, hpast'⟩ := ParseState.Past.of_sees hopen
  obtain ⟨text, declared, hrest, rfl, htext, hlocals, hlength⟩ := hparams.written
  have hbehind : u.Leads w := steady_leads.trans (hresult.leads rfl)
    (steady_leads.trans (steady_leads.advance _) (hbody.leads rfl))
  have hfunctions : w.functions = s.functions :=
    hbehind.functions.trans (hparams.leads rfl).functions
  -- The function that is declared is the one that was asked for.
  change w.functions ++ [_] = _ at hf
  rw [hfunctions] at hf
  obtain rfl := List.singleton_inj.1 (List.append_cancel_left hf)
  refine ⟨declared, ?_, ?_, ?_, map_snd_numbered _ _, ?_⟩
  · obtain ⟨before, rfl⟩ := hs
    refine ⟨before, func :: ⟨.identifier, loc, name⟩ :: first :: text, u.rest, ?_,
      .intro hfunc hfirst htext⟩
    have hopened : s.rest
        = func :: ⟨.identifier, loc, name⟩ :: first :: s.advance.advance.advance.rest :=
      ((hpast.trans (.advance hname)).trans hpast').rest
    have hheader : s.advance.advance.advance.rest = text ++ u.rest := hrest
    rw [hopened, hheader]
    simp
  · rw [numbered, List.length_map, List.length_zipIdx] at hlength
    exact hlength
  · rw [List.range_eq_range']
    exact map_fst_numbered 0 declared
  · have hstart : u.locals = declared.map Variable.ofParameter := hlocals
    rw [← hstart]
    exact hbehind.locals

end PocketCompiler
