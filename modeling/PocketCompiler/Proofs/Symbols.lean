import Mathlib.Data.List.Nodup
import PocketCompiler.Proofs.Grammar.Naming
import PocketCompiler.Proofs.Lower.Labels

/-!
# Labels and symbols of the assembly

The labels of an assembly program come from three places: the names of globals and functions, the
counter of string literals, and the counter of conditionals and loops, which goes on from function
to function.  `Listing.WellLabelled` says that they do not get into each other's way, that jumps
stay in their function, that addresses are those of data, and that no name is read as something
else.  It holds of the assembly of every source (`Source.wellLabelled_compile`).
-/

namespace PocketCompiler

/-! ### What lines refer to -/

/-- A line that refers to these globals only, and calls functions by names that can be symbols. -/
def Line.RefersTo (globals : List String) : Line → Prop
  | .instr (.globalAddress _ name) | .directive (.address name) => name ∈ globals
  | .instr (.call name) => IsSymbol name
  | _ => True

/-- Lines that refer to these globals only, and call functions by names that can be symbols. -/
def Code.RefersTo (globals : List String) (code : Code) : Prop :=
  ∀ line ∈ code, line.RefersTo globals

/-- Whether a line refers to no global and calls no function. -/
def Line.isPlain : Line → Bool
  | .instr (.globalAddress _ _) | .directive (.address _) | .instr (.call _) => false
  | _ => true

section Refers

variable {globals : List String} {code first second : Code}

/-- Plain lines refer to nothing. -/
theorem Code.refersTo_of_isPlain (h : code.all Line.isPlain = true) : code.RefersTo globals := by
  intro line hline
  have hplain := List.all_eq_true.1 h line hline
  unfold Line.RefersTo
  split
  · exact nomatch hplain
  · exact nomatch hplain
  · exact nomatch hplain
  · trivial

theorem Code.RefersTo.append (hfirst : first.RefersTo globals) (hsecond : second.RefersTo globals) :
    Code.RefersTo globals (first ++ second) :=
  List.forall_mem_append.2 ⟨hfirst, hsecond⟩

/-- Pieces of code refer to globals only, if each of them does. -/
theorem Code.refersTo_flatten {α : Type} {R : α → Code → Prop} {xs : List α} {codes : List Code}
    (h : List.Forall₂ R xs codes) (hR : ∀ x ∈ xs, ∀ {code}, R x code → code.RefersTo globals) :
    Code.RefersTo globals codes.flatten := by
  induction h with
  | nil => exact Code.refersTo_of_isPlain rfl
  | cons hfirst _ ih =>
    rw [List.flatten_cons]
    exact (hR _ List.mem_cons_self hfirst).append (ih fun x hx => hR x (List.mem_cons_of_mem _ hx))

end Refers

namespace Lower

variable {globals : List String} {routine : Routine}

theorem refersTo_load (ty : Option Ty) : Code.RefersTo globals (load ty) := by
  refine Code.refersTo_of_isPlain ?_
  unfold load
  split
  · split
    · rfl
    · split <;> rfl
  · rfl

theorem refersTo_store (ty : Option Ty) : Code.RefersTo globals (store ty) := by
  refine Code.refersTo_of_isPlain ?_
  unfold store
  split
  · split <;> rfl
  · rfl

theorem refersTo_operate (op : BinaryOp) : Code.RefersTo globals (operate op) := by
  refine Code.refersTo_of_isPlain ?_
  cases op <;> rfl

/-- The address of a global refers to the name that it has in the table. -/
theorem refersTo_variableAt {ref : VarRef} {code : Code} (h : variableAt routine ref = .ok code) :
    code.RefersTo (routine.globals.map (·.name)) := by
  cases ref with
  | localVar index =>
    obtain ⟨offset, -, hline⟩ := bind_eq_ok_iff.1 h
    obtain rfl := Except.ok.inj hline
    exact Code.refersTo_of_isPlain rfl
  | globalVar index =>
    obtain ⟨found, hfound, hline⟩ := bind_eq_ok_iff.1 h
    obtain rfl := Except.ok.inj hline
    refine List.forall_mem_singleton.2 (List.mem_map_of_mem ?_)
    exact List.mem_of_getElem? (entry_eq_ok_iff.1 hfound)

/-- A call refers to the function by a name that can be a symbol. -/
theorem refersTo_callAt {depth count : Nat} {name : String} {code : Code} (hname : IsSymbol name)
    (h : callAt depth name count = .ok code) : code.RefersTo globals := by
  have hplain : ∀ step, Line.isPlain (.instr step) = true →
      Code.RefersTo globals [.instr step] := by
    intro step hstep
    exact Code.refersTo_of_isPlain (by simpa using hstep)
  have hcall : Code.RefersTo globals [.instr (.call name)] := List.forall_mem_singleton.2 hname
  have haligned : Code.RefersTo globals (aligned depth name) := by
    unfold aligned
    split
    · exact ((hplain _ rfl).append hcall).append (hplain _ rfl)
    · exact hcall
  unfold callAt at h
  split at h
  · obtain rfl := Except.ok.inj h
    refine (Code.RefersTo.append ?_ (hplain _ rfl)).append haligned
    rintro line hline
    obtain ⟨dst, -, rfl⟩ := List.mem_map.1 hline
    trivial
  · exact nomatch h

/-- Expressions refer to the globals in the table and to the functions that they call. -/
theorem cases_refersTo (routine : Routine) :
    ExprCases routine
      (fun _ node code => AllSymbols node.calls → code.RefersTo (routine.globals.map (·.name)))
      (fun _ node code => AllSymbols node.calls → code.RefersTo (routine.globals.map (·.name)))
      (fun _ nodes code => AllSymbols (Node.callsAll nodes) →
        code.RefersTo (routine.globals.map (·.name))) where
  num _ _ _ _ := Code.refersTo_of_isPlain rfl
  var _ mark _ _ hplace _ := (refersTo_variableAt hplace).append (refersTo_load mark.ty)
  neg _ _ _ _ hcode hcalls := (hcode hcalls).append (Code.refersTo_of_isPlain rfl)
  addr _ _ _ _ hcode hcalls := hcode hcalls
  deref _ mark _ _ hcode hcalls := (hcode hcalls).append (refersTo_load mark.ty)
  -- Only the operands can refer to symbols; the lines between them do not.
  binary _ _ op _ _ _ _ hright hleft hcalls := by
    obtain ⟨hl, hr⟩ := List.forall_mem_append.1 hcalls
    exact ((((hright hr).append (Code.refersTo_of_isPlain rfl)).append (hleft hl)).append
      (Code.refersTo_of_isPlain rfl)).append (refersTo_operate op)
  assign _ mark _ _ _ _ hplace hcode hcalls := by
    obtain ⟨ht, hv⟩ := List.forall_mem_append.1 hcalls
    exact ((((hplace ht).append (Code.refersTo_of_isPlain rfl)).append (hcode hv)).append
      (Code.refersTo_of_isPlain rfl)).append (refersTo_store mark.ty)
  call _ _ _ _ _ _ hpushed hcalled hcalls := by
    obtain ⟨hname, hargs⟩ := List.forall_mem_cons.1 hcalls
    exact (hpushed hargs).append (refersTo_callAt hname hcalled)
  varAddress _ _ _ _ hplace _ := refersTo_variableAt hplace
  derefAddress _ _ _ _ hcode hcalls := hcode hcalls
  nil _ _ := Code.refersTo_of_isPlain rfl
  cons _ _ _ _ _ hcode hmore hcalls := by
    obtain ⟨harg, hargs⟩ := List.forall_mem_append.1 hcalls
    exact ((hcode harg).append (Code.refersTo_of_isPlain rfl)).append (hmore hargs)

theorem refersTo_exprAt {depth : Nat} {node : Node} {code : Code}
    (h : exprAt routine depth node = .ok code) (hcalls : AllSymbols node.calls) :
    code.RefersTo (routine.globals.map (·.name)) :=
  (cases_refersTo routine).exprAt node h hcalls

theorem refersTo_exprSomeAt {node : Option Node} {code : Code}
    (h : exprSomeAt routine node = .ok code) (hcalls : AllSymbols (Node.callsSome node)) :
    code.RefersTo (routine.globals.map (·.name)) := by
  cases node with
  | none =>
    obtain rfl := Except.ok.inj h
    exact Code.refersTo_of_isPlain rfl
  | some node => exact refersTo_exprAt h hcalls

theorem refersTo_guardAt {exit : Label} {cond : Option Node} {code : Code}
    (h : guardAt routine exit cond = .ok code) (hcalls : AllSymbols (Node.callsSome cond)) :
    code.RefersTo (routine.globals.map (·.name)) := by
  cases cond with
  | none =>
    obtain rfl := Except.ok.inj h
    exact Code.refersTo_of_isPlain rfl
  | some cond =>
    obtain ⟨test, htest, hline⟩ := bind_eq_ok_iff.1 h
    obtain rfl := Except.ok.inj hline
    exact (refersTo_exprAt htest hcalls).append (Code.refersTo_of_isPlain rfl)

/-- Statements refer to what their expressions refer to. -/
theorem cases_refersTo_stmt (routine : Routine) :
    StmtCases routine
      (fun _ node code _ => AllSymbols node.calls → code.RefersTo (routine.globals.map (·.name)))
      (fun _ nodes code _ => AllSymbols (Node.callsAll nodes) →
        code.RefersTo (routine.globals.map (·.name)))
      (fun _ node code _ => AllSymbols (Node.callsSome node) →
        code.RefersTo (routine.globals.map (·.name))) where
  exprStmt _ _ _ _ hcode hcalls := refersTo_exprAt hcode hcalls
  ret _ _ _ _ hcode hcalls := by
    refine (refersTo_exprAt hcode hcalls).append (Code.refersTo_of_isPlain ?_)
    unfold leave
    split <;> rfl
  block _ _ _ _ _ hcode hcalls := hcode hcalls
  -- The lines that are put between the parts refer to labels only.
  ifElse _ _ _ _ _ _ _ _ _ _ htest hfirst hsecond hcalls := by
    obtain ⟨hcalls, hfalse⟩ := List.forall_mem_append.1 hcalls
    obtain ⟨hcond, htrue⟩ := List.forall_mem_append.1 hcalls
    exact (((((refersTo_exprAt htest hcond).append (Code.refersTo_of_isPlain rfl)).append
      (hfirst htrue)).append (Code.refersTo_of_isPlain rfl)).append (hsecond hfalse)).append
        (Code.refersTo_of_isPlain rfl)
  loop _ _ _ _ _ _ _ _ _ _ _ hstart htest hinside hnext hcalls := by
    obtain ⟨hcalls, hbody⟩ := List.forall_mem_append.1 hcalls
    obtain ⟨hcalls, hstep⟩ := List.forall_mem_append.1 hcalls
    obtain ⟨hinit, hcond⟩ := List.forall_mem_append.1 hcalls
    exact (((((refersTo_exprSomeAt hstart hinit).append (Code.refersTo_of_isPlain rfl)).append
      (refersTo_guardAt htest hcond)).append (hinside hbody)).append
        (refersTo_exprSomeAt hnext hstep)).append (Code.refersTo_of_isPlain rfl)
  nil _ _ := Code.refersTo_of_isPlain rfl
  cons _ _ _ _ _ _ _ hcode hmore hcalls := by
    obtain ⟨hnode, hnodes⟩ := List.forall_mem_append.1 hcalls
    exact (hcode hnode).append (hmore hnodes)
  missing _ _ := Code.refersTo_of_isPlain rfl
  present _ _ _ _ hcode hcalls := hcode hcalls

/-- The lines of a function refer to globals, and call by names that can be symbols. -/
theorem refersTo_routine {globals : List Variable} {f : Function} {frame : Frame} {lines : Code}
    (hcalls : AllSymbols f.body.calls) (h : IsRoutine globals f frame lines) :
    lines.RefersTo (globals.map (·.name)) := by
  obtain ⟨labels, last, arguments, body, harguments, hbody, rfl⟩ := h.exists_parts
  refine (((Code.refersTo_of_isPlain rfl).append ?_).append ?_).append
    (Code.refersTo_of_isPlain rfl)
  · intro line hline
    obtain ⟨offset, ty, src, rfl⟩ := exists_spill_of_mem_spills harguments line hline
    unfold spill
    split <;> trivial
  · exact (cases_refersTo_stmt (routineOf globals f frame)).stmtFrom f.body hbody hcalls

/-! ### Where jumps go -/

/-- A jump in the lines of a function goes to a label in these lines. -/
theorem target_mem_labels_routine {globals : List Variable} {f : Function} {frame : Frame}
    {lines : Code} (h : IsRoutine globals f frame lines) {target : Label}
    (hjump : .instr (.jump target) ∈ lines ∨ .instr (.jumpIfEqual target) ∈ lines) :
    target ∈ lines.labels := by
  obtain ⟨labels, last, arguments, body, harguments, hbody, rfl⟩ := h.exists_parts
  have hstraight : arguments.Straight := straight_spills harguments
  have hplaceable := placeable_stmtFrom hbody
  rw [labels_routine hstraight]
  -- The lines around the body do not jump.
  have hinside : ∀ step : Instr, step.isControl = true → step ≠ .ret →
      .instr step ∈ prologue f.name frame.size ++ arguments ++ body ++ epilogue f.name →
        Line.TargetsIn f.name body.labels (.instr step) := by
    intro step hstep hret hmem
    rcases List.mem_append.1 hmem with hmem | hmem
    · rcases List.mem_append.1 hmem with hmem | hmem
      · rcases List.mem_append.1 hmem with hmem | hmem
        · simp only [prologue, List.mem_cons, reduceCtorEq, Line.instr.injEq, List.not_mem_nil,
            false_or, or_false] at hmem
          rcases hmem with rfl | rfl | rfl <;> exact nomatch hstep
        · obtain ⟨found, heq, hfound⟩ := hstraight _ hmem
          rw [← Line.instr.inj heq, hstep] at hfound
          exact nomatch hfound
      · exact hplaceable.targets _ hmem
    · simp only [epilogue, List.mem_cons, reduceCtorEq, Line.instr.injEq, List.not_mem_nil,
        false_or, or_false] at hmem
      rcases hmem with rfl | rfl | rfl
      · exact nomatch hstep
      · exact nomatch hstep
      · exact absurd rfl hret
  refine List.mem_cons_of_mem _ (List.mem_append.2 ?_)
  -- A jump goes to the end of the function or stays in the body; a conditional one stays.
  rcases hjump with hjump | hjump
  · rcases hinside (.jump target) rfl nofun hjump with rfl | htarget
    · exact .inr List.mem_cons_self
    · exact .inl htarget
  · exact .inl (hinside (.jumpIfEqual target) rfl nofun hjump)

/-! ### The labels of data and code -/

/-- The labels in the code of functions are two for each name, and numbered ones, which go on from
function to function. -/
theorem exists_bodies {globals : List Variable} :
    ∀ (fs : List (Function × Frame)) {labels : Nat} {code : Code} {last : Nat},
      functionsFrom globals labels fs = .ok (code, last) →
        ∃ bodies : Code, bodies.Numbered labels last
          ∧ code.labels.Perm (fs.map (fun f => .symbol f.1.name)
            ++ (fs.map (fun f => .returnOf f.1.name) ++ bodies.labels))
  | [], labels, code, last, h => by
    rw [functionsFrom] at h
    obtain ⟨rfl, rfl⟩ := Prod.mk.inj (Except.ok.inj h)
    exact ⟨[], Code.straight_nil.numbered labels, .refl _⟩
  | (first, frame) :: more, labels, code, last, h => by
    rw [functionsFrom] at h
    obtain ⟨⟨lines, middle⟩, hlines, h⟩ := bind_eq_ok_iff.1 h
    obtain ⟨⟨rest, last'⟩, hrest, h⟩ := bind_eq_ok_iff.1 h
    obtain ⟨rfl, rfl⟩ := Prod.mk.inj (Except.ok.inj h)
    obtain ⟨arguments, harguments, hlines⟩ := bind_eq_ok_iff.1 hlines
    obtain ⟨⟨body, middle'⟩, hbody, hlines⟩ := bind_eq_ok_iff.1 hlines
    obtain ⟨rfl, rfl⟩ := Prod.mk.inj (Except.ok.inj hlines)
    obtain ⟨bodies, hnumbered, hperm⟩ := exists_bodies more hrest
    refine ⟨body ++ bodies, (placeable_stmtFrom hbody).numbered.append hnumbered, ?_⟩
    rw [Code.labels_append _ rest, labels_routine (straight_spills harguments),
      Code.labels_append body]
    -- The labels are the same in another order, so it is enough to count them.
    refine (hperm.append_left _).trans (List.perm_iff_count.2 fun place => ?_)
    simp only [List.map_cons, List.count_append, List.count_cons, List.count_nil]
    omega

/-- What a global holds is data, and an address in it is the one that it starts with. -/
theorem exists_directive_of_mem_contents {stored : Variable} {lines : Code}
    (h : contents stored = .ok lines) : ∀ line ∈ lines, ∃ order, line = .directive order
      ∧ ∀ label, order = .address label → stored.contents = some (.address label) := by
  unfold contents at h
  split at h
  · obtain ⟨zeros, hzeros, hlines⟩ := bind_eq_ok_iff.1 h
    obtain rfl := Except.ok.inj hlines
    refine List.forall_mem_append.2 ⟨fun line hline => ?_, fun line hline => ?_⟩
    · obtain ⟨b, -, rfl⟩ := List.mem_map.1 hline
      exact ⟨.byte b, rfl, nofun⟩
    · obtain ⟨missing, -, hzeros⟩ := bind_eq_ok_iff.1 hzeros
      split at hzeros
      · obtain rfl := Except.ok.inj hzeros
        exact ⟨.zero missing, List.mem_singleton.1 hline, nofun⟩
      · obtain rfl := Except.ok.inj hzeros
        exact absurd hline List.not_mem_nil
  · next label hcontents =>
    obtain rfl := Except.ok.inj h
    refine List.forall_mem_singleton.2 ⟨.address label, rfl, fun found hfound => ?_⟩
    rw [← Directive.address.inj hfound]
    exact hcontents
  · obtain rfl := Except.ok.inj h
    exact List.forall_mem_singleton.2 ⟨.zero _, rfl, nofun⟩

/-- The data of a global has one label, its name, and refers to globals. -/
theorem labels_datum {stored : Variable} {lines : Code} (h : datum stored = .ok lines) :
    lines.labels = [.symbol stored.name] := by
  obtain ⟨inner, hinner, hlines⟩ := bind_eq_ok_iff.1 h
  obtain rfl := Except.ok.inj hlines
  have hnone : inner.labels = [] := by
    refine List.filterMap_eq_nil_iff.2 fun line hline => ?_
    obtain ⟨order, rfl, -⟩ := exists_directive_of_mem_contents hinner line hline
    rfl
  rw [Code.labels_append, hnone]
  rfl

/-- The data of a global refers to at most one other global, whose address it holds. -/
theorem refersTo_datum {stored : Variable} {lines : Code} {globals : List String}
    (haddress : ∀ label, stored.contents = some (.address label) → label ∈ globals)
    (h : datum stored = .ok lines) : lines.RefersTo globals := by
  obtain ⟨inner, hinner, hlines⟩ := bind_eq_ok_iff.1 h
  obtain rfl := Except.ok.inj hlines
  refine Code.RefersTo.append (Code.refersTo_of_isPlain rfl) fun line hline => ?_
  obtain ⟨order, rfl, horder⟩ := exists_directive_of_mem_contents hinner line hline
  cases order with
  | address label => exact haddress label (horder label rfl)
  | _ => trivial

/-- The labels of the data are those of the globals, in the same order. -/
theorem labels_flatten_data {globals : List Variable} {data : List Code}
    (h : List.Forall₂ (fun g lines => datum g = .ok lines) globals data) :
    Code.labels data.flatten = globals.map fun g => .symbol g.name := by
  induction h with
  | nil => rfl
  | cons hfirst _ ih => rw [List.flatten_cons, Code.labels_append, labels_datum hfirst, ih]; rfl

end Lower

/-! ### Labels as they are written -/

@[simp] theorem Label.toList_text_returnOf (name : String) : (Label.returnOf name).text.toList
    = '.' :: 'L' :: '.' :: 'r' :: 'e' :: 't' :: 'u' :: 'r' :: 'n' :: '.' :: name.toList := by
  rw [Label.text, String.toList_append, show ".L.return.".toList = _ from String.toList_ofList]
  rfl

@[simp] theorem Label.toList_text_elseOf (number : Nat) : (Label.elseOf number).text.toList
    = '.' :: 'L' :: '.' :: 'e' :: 'l' :: 's' :: 'e' :: '.' :: Nat.toDigits 10 number := by
  rw [Label.text, String.toList_append, show (toString number).toList = _ from Nat.toList_repr,
    show ".L.else.".toList = _ from String.toList_ofList]
  rfl

@[simp] theorem Label.toList_text_beginOf (number : Nat) : (Label.beginOf number).text.toList
    = '.' :: 'L' :: '.' :: 'b' :: 'e' :: 'g' :: 'i' :: 'n' :: '.' :: Nat.toDigits 10 number := by
  rw [Label.text, String.toList_append, show (toString number).toList = _ from Nat.toList_repr,
    show ".L.begin.".toList = _ from String.toList_ofList]
  rfl

@[simp] theorem Label.toList_text_endOf (number : Nat) : (Label.endOf number).text.toList
    = '.' :: 'L' :: '.' :: 'e' :: 'n' :: 'd' :: '.' :: Nat.toDigits 10 number := by
  rw [Label.text, String.toList_append, show (toString number).toList = _ from Nat.toList_repr,
    show ".L.end.".toList = _ from String.toList_ofList]
  rfl

/-- A symbol with a name that a program can have. -/
def Label.IsFit : Label → Prop
  | .symbol name => IsSymbol name ∨ ∃ number, name = Symbol.ofLiteral number
  | _ => True

/-- Symbols are not written like other labels. -/
theorem Label.not_isFit_symbol {name : String} {c : Char} {cs : List Char} (hc : c ≠ '.')
    (h : name.toList = '.' :: 'L' :: '.' :: c :: cs) : ¬ (Label.symbol name).IsFit := by
  rintro (hsymbol | ⟨number, rfl⟩)
  · obtain ⟨d, ds, htext, hd⟩ := exists_of_isIdentifier hsymbol.1
    rw [h] at htext
    obtain ⟨rfl, -⟩ := List.cons.inj htext
    exact absurd hd (by decide)
  · rw [toList_ofLiteral] at h
    simp only [List.cons.injEq, true_and] at h
    exact hc h.1.symm

/-- A label that is no symbol is written with its kind behind a dot. -/
theorem Label.exists_toList_text {place : Label} (h : ∀ name, place ≠ .symbol name) :
    ∃ c cs, c ≠ '.' ∧ place.text.toList = '.' :: 'L' :: '.' :: c :: cs := by
  cases place with
  | symbol name => exact absurd rfl (h name)
  | returnOf name => exact ⟨_, _, by decide, toList_text_returnOf name⟩
  | elseOf number => exact ⟨_, _, by decide, toList_text_elseOf number⟩
  | beginOf number => exact ⟨_, _, by decide, toList_text_beginOf number⟩
  | endOf number => exact ⟨_, _, by decide, toList_text_endOf number⟩

/-- **Different labels are written differently.** -/
theorem Label.text_injective {a b : Label} (ha : a.IsFit) (hb : b.IsFit) (h : a.text = b.text) :
    a = b := by
  -- A symbol is not written like a label that is none.
  have hmixed : ∀ {name : String} {place : Label}, (Label.symbol name).IsFit →
      (∀ name, place ≠ .symbol name) → name ≠ place.text := by
    rintro name place hname hplace rfl
    obtain ⟨c, cs, hc, htext⟩ := Label.exists_toList_text hplace
    exact not_isFit_symbol hc htext hname
  have hlist := congrArg String.toList h
  -- The kind of a label shows behind `.L.`, and its name or number behind that.
  cases a with
  | symbol name =>
    cases b with
    | symbol name' => exact congrArg Label.symbol h
    | _ => exact absurd h (hmixed ha nofun)
  | returnOf name =>
    cases b with
    | symbol name' => exact absurd h.symm (hmixed hb nofun)
    | returnOf name' =>
      simp only [toList_text_returnOf, List.cons.injEq, true_and] at hlist
      rw [String.toList_injective hlist]
    | _ => simp at hlist
  | elseOf number =>
    cases b with
    | symbol name' => exact absurd h.symm (hmixed hb nofun)
    | elseOf number' =>
      simp only [toList_text_elseOf, List.cons.injEq, true_and] at hlist
      rw [toDigits_injective hlist]
    | _ => simp at hlist
  | beginOf number =>
    cases b with
    | symbol name' => exact absurd h.symm (hmixed hb nofun)
    | beginOf number' =>
      simp only [toList_text_beginOf, List.cons.injEq, true_and] at hlist
      rw [toDigits_injective hlist]
    | _ => simp at hlist
  | endOf number =>
    cases b with
    | symbol name' => exact absurd h.symm (hmixed hb nofun)
    | endOf number' =>
      simp only [toList_text_endOf, List.cons.injEq, true_and] at hlist
      rw [toDigits_injective hlist]
    | _ => simp at hlist

/-! ### Listings -/

/-- The labels and symbols of an assembly program are well formed. -/
structure Listing.WellLabelled (listing : Listing) (program : Program) : Prop where
  /-- No label is defined twice, as labels are written. -/
  distinct : (listing.lines.labels.map Label.text).Nodup
  /-- The code is the routines of the functions, and a jump goes to a label of its own routine. -/
  jumps : ∃ routines : List Code, listing.code = routines.flatten
    ∧ List.Forall₂ (fun f lines => (∃ frame, IsRoutine program.globals f frame lines)
      ∧ ∀ target, .instr (.jump target) ∈ lines ∨ .instr (.jumpIfEqual target) ∈ lines →
        target ∈ Code.labels lines) program.functions routines
  /-- Addresses are those of labels in the data. -/
  addresses : ∀ name, (∃ dst, .instr (.globalAddress dst name) ∈ listing.lines)
    ∨ .directive (.address name) ∈ listing.lines → name ∈ listing.data.labels.map Label.text
  /-- What is defined or called is local to the assembly, or an identifier that is not reserved. -/
  symbols : ∀ name,
    name ∈ listing.lines.labels.map Label.text ∨ .instr (.call name) ∈ listing.lines →
      ['.', 'L', '.'] <+: name.toList ∨ isIdentifier name = true ∧ name ∉ Symbol.reserved

/-- The labels of the assembly of a program. -/
theorem Program.exists_bodies_of_lower {program : Program} {listing : Listing}
    (h : program.lower = .ok listing) :
    ∃ (bodies : Code) (last : Nat), bodies.Numbered 0 last
      ∧ listing.data.labels = program.globals.map (fun g => .symbol g.name)
      ∧ listing.lines.labels.Perm (program.names.map Label.symbol
        ++ (program.functions.map (fun f => .returnOf f.name) ++ bodies.labels)) := by
  rw [program.lower_eq] at h
  obtain ⟨frames, hframes, h⟩ := bind_eq_ok_iff.1 h
  obtain ⟨data, hdata, h⟩ := bind_eq_ok_iff.1 h
  obtain ⟨⟨code, last⟩, hcode, h⟩ := bind_eq_ok_iff.1 h
  obtain rfl := Except.ok.inj h
  obtain ⟨bodies, hnumbered, hperm⟩ := Lower.exists_bodies _ hcode
  -- There is a frame for each function, so pairing functions with frames loses none.
  have hzip : ∀ g : Function → Label, (program.functions.zip frames).map (fun f => g f.1)
      = program.functions.map g := by
    intro g
    have hlength := (forall₂_of_mapM_eq_ok hframes).length_eq
    have hfst : (program.functions.zip frames).map Prod.fst = program.functions :=
      List.map_fst_zip (Nat.le_of_eq hlength)
    exact List.map_map.symm.trans (congrArg (List.map g) hfst)
  have hlabels := Lower.labels_flatten_data (forall₂_of_mapM_eq_ok hdata)
  refine ⟨bodies, last, hnumbered, hlabels, ?_⟩
  show (Code.labels (data.flatten ++ code)).Perm _
  rw [hzip fun f => .symbol f.name, hzip fun f => .returnOf f.name] at hperm
  rw [Code.labels_append, hlabels, Program.names, List.map_append, List.map_map, List.map_map,
    List.append_assoc]
  exact hperm.append_left _

/-- The labels of a program with distinct names are distinct. -/
theorem Program.Named.nodup_labels {program : Program} (h : program.Named) {bodies : Code}
    {last : Nat} (hbodies : bodies.Numbered 0 last) :
    (program.names.map Label.symbol
      ++ (program.functions.map (fun f => Label.returnOf f.name) ++ bodies.labels)).Nodup := by
  have hsymbols : (program.names.map Label.symbol).Nodup :=
    h.nodup.map fun _ _ heq => Label.symbol.inj heq
  have hreturns : (program.functions.map fun f => Label.returnOf f.name).Nodup := by
    have hnames : (program.functions.map (·.name)).Nodup := (List.nodup_append.1 h.nodup).2.1
    have hmapped := hnames.map fun _ _ heq => Label.returnOf.inj heq
    rwa [List.map_map] at hmapped
  -- A label of the bodies has a number.
  have hnumber : ∀ {place : Label}, place.number? = none → place ∉ bodies.labels := by
    intro place hnone hmem
    obtain ⟨number, hsome, -⟩ := hbodies.range place hmem
    exact nomatch hnone.symm.trans hsome
  refine List.nodup_append.2 ⟨hsymbols, List.nodup_append.2 ⟨hreturns, hbodies.nodup, ?_⟩, ?_⟩
  · rintro place hplace other hother rfl
    obtain ⟨f, -, rfl⟩ := List.mem_map.1 hplace
    exact hnumber rfl hother
  · rintro place hplace other hother rfl
    obtain ⟨name, -, rfl⟩ := List.mem_map.1 hplace
    rcases List.mem_append.1 hother with hother | hother
    · obtain ⟨f, -, heq⟩ := List.mem_map.1 hother
      exact nomatch heq
    · exact hnumber rfl hother

/-- The symbols of a program are fit to be labels. -/
theorem Program.Named.isFit {program : Program} (h : program.Named) {name : String}
    (hname : name ∈ program.names) : (Label.symbol name).IsFit := by
  rcases List.mem_append.1 hname with hname | hname
  · obtain ⟨g, hg, rfl⟩ := List.mem_map.1 hname
    exact h.globals g hg
  · obtain ⟨f, hf, rfl⟩ := List.mem_map.1 hname
    exact .inl (h.functions f hf).1

/-- A label that is no symbol of the program starts with `.L.`. -/
theorem Label.IsFit.text {place : Label} (h : place.IsFit) :
    ['.', 'L', '.'] <+: place.text.toList ∨ IsSymbol place.text := by
  have hlocal : (∀ name, place ≠ .symbol name) → ['.', 'L', '.'] <+: place.text.toList := by
    intro hplace
    obtain ⟨c, cs, -, htext⟩ := Label.exists_toList_text hplace
    rw [htext]
    exact ⟨c :: cs, rfl⟩
  cases place with
  | symbol name =>
    rcases h with hsymbol | ⟨number, rfl⟩
    · exact .inr hsymbol
    · refine .inl ?_
      rw [Label.text, toList_ofLiteral]
      exact ⟨_, rfl⟩
  | _ => exact .inl (hlocal nofun)

/-- The lines of a program refer to its globals. -/
theorem Program.Named.refersTo {program : Program} {listing : Listing} (hnamed : program.Named)
    (h : program.lower = .ok listing) : listing.lines.RefersTo (program.globals.map (·.name)) := by
  obtain ⟨routines, hcode, hroutines⟩ := exists_routines_of_lower h
  have hrefers : listing.code.RefersTo (program.globals.map (·.name)) := by
    rw [hcode]
    refine Code.refersTo_flatten hroutines ?_
    rintro f hf lines ⟨frame, -, hroutine⟩
    exact Lower.refersTo_routine (hnamed.functions f hf).2 hroutine
  rw [program.lower_eq] at h
  obtain ⟨frames, -, h⟩ := bind_eq_ok_iff.1 h
  obtain ⟨data, hdata, h⟩ := bind_eq_ok_iff.1 h
  obtain ⟨⟨code, last⟩, -, h⟩ := bind_eq_ok_iff.1 h
  obtain rfl := Except.ok.inj h
  refine List.forall_mem_cons.2 ⟨trivial, Code.RefersTo.append ?_ hrefers⟩
  exact Code.refersTo_flatten (forall₂_of_mapM_eq_ok hdata) fun g hg {lines} hlines =>
    Lower.refersTo_datum (hnamed.addresses g hg) hlines

/-- A value of a computation that may meet a fault is its value. -/
theorem eq_ok_of_orFault {α : Type} {r : Except Fault α} {a : α} (h : orFault r = .ok a) :
    r = .ok a := by
  cases r with
  | ok found => exact congrArg Except.ok (Except.ok.inj h)
  | error cause => exact nomatch h

/-- **The labels and symbols of the assembly of a source are well formed.** -/
theorem Source.wellLabelled_compile {source : Source} {listing : Listing}
    (h : source.compile = .ok listing) :
    ∃ program, source.program = .ok program ∧ listing.WellLabelled program := by
  obtain ⟨program, hprogram, hlower⟩ := bind_eq_ok_iff.1 h
  have hlower := eq_ok_of_orFault hlower
  have hnamed := Source.named_program hprogram
  obtain ⟨bodies, last, hbodies, hdata, hperm⟩ := program.exists_bodies_of_lower hlower
  have hrefers := hnamed.refersTo hlower
  -- Every label is the name of a global or function, the end of a function, or numbered.
  have hfit : ∀ place ∈ listing.lines.labels, place.IsFit := by
    intro place hplace
    rcases List.mem_append.1 (hperm.mem_iff.1 hplace) with hplace | hplace
    · obtain ⟨name, hname, rfl⟩ := List.mem_map.1 hplace
      exact hnamed.isFit hname
    · rcases List.mem_append.1 hplace with hplace | hplace
      · obtain ⟨f, -, rfl⟩ := List.mem_map.1 hplace
        trivial
      · obtain ⟨number, hnumber, -⟩ := hbodies.range place hplace
        cases place with
        | symbol name => exact nomatch hnumber
        | _ => trivial
  have hdefined : ∀ name, name ∈ program.globals.map (·.name) →
      name ∈ listing.data.labels.map Label.text := by
    intro name hname
    rw [hdata, List.map_map]
    exact hname
  -- Distinct texts, jumps inside of a function, data for every operand, and names.
  refine ⟨program, hprogram, ?_, ?_, ?_, ?_⟩
  · refine List.Nodup.map_on (fun a ha b hb htext => ?_)
      (hperm.nodup_iff.2 (hnamed.nodup_labels hbodies))
    exact Label.text_injective (hfit a ha) (hfit b hb) htext
  · obtain ⟨routines, hcode, hroutines⟩ := exists_routines_of_lower hlower
    refine ⟨routines, hcode, hroutines.imp ?_⟩
    rintro f lines ⟨frame, -, hroutine⟩
    exact ⟨⟨frame, hroutine⟩, fun target => Lower.target_mem_labels_routine hroutine⟩
  · rintro name (⟨dst, hmem⟩ | hmem)
    · exact hdefined name (hrefers _ hmem)
    · exact hdefined name (hrefers _ hmem)
  · rintro name (hmem | hmem)
    · obtain ⟨place, hplace, rfl⟩ := List.mem_map.1 hmem
      exact (hfit place hplace).text
    · exact .inr (hrefers _ hmem)

/-- A literal, a global that starts with its address, conditionals and a loop in two functions, and
a call of a function from elsewhere. -/
def Source.greeting : Source :=
  ⟨"greeting", "var s *char = \"hi\"; func f(n int) int \x7b if n return *s; "
    ++ "for n \x7b n = 0; \x7d return puts(s); \x7d "
    ++ "func main() int \x7b if f(1) \x7b \x7d return 0; \x7d"⟩

theorem Source.wellLabelled_compile_greeting :
    ∃ listing program, Source.greeting.compile = .ok listing
      ∧ Source.greeting.program = .ok program
      ∧ listing.lines.labels.map Label.text
        = [".L..0", "s", "f", ".L.else.1", ".L.end.1", ".L.begin.2", ".L.end.2", ".L.return.f",
          "main", ".L.else.3", ".L.end.3", ".L.return.main"]
      ∧ listing.WellLabelled program := by
  have hlabels : (Source.greeting.compile.toOption.map fun listing =>
      listing.lines.labels.map Label.text)
      = some [".L..0", "s", "f", ".L.else.1", ".L.end.1", ".L.begin.2", ".L.end.2", ".L.return.f",
        "main", ".L.else.3", ".L.end.3", ".L.return.main"] := by decide +kernel
  obtain ⟨listing, hlisting, hlabels⟩ := Option.map_eq_some_iff.1 hlabels
  have hok := eq_ok_of_toOption_eq_some hlisting
  obtain ⟨program, hprogram, hwell⟩ := Source.wellLabelled_compile hok
  exact ⟨listing, program, hok, hprogram, hlabels, hwell⟩

end PocketCompiler
