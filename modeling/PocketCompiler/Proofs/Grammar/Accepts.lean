import PocketCompiler.Proofs.Grammar.AcceptsExpr
import PocketCompiler.Proofs.Grammar.Readers
import PocketCompiler.Proofs.Grammar.Settled

/-!
# Every program of the grammar is read

If a declaration, a statement or a function of the grammar comes next, then its rule leaves what
follows, so no token of a program in which every loop repeats a block is unwanted
(`ParseState.Units.not_isUnexpected`).

Statements are taken as `Settled` takes them.  A statement may hold shorter ones in its blocks, so
the proof goes by induction on the length of the statement.
-/

namespace PocketCompiler

variable {s : ParseState} {u v w r : List Terminal} {n : Nat}

/-! ### Declarators -/

theorem leaves_stars (hw : Derives bracedGrammar (.many (.text "*")) w)
    (hend : r.head? ≠ some (.lexeme "*")) :
    ∀ {count : Nat} {s : ParseState}, s.Ahead (w ++ r) → ((Rule.stars count).step s).Leaves r := by
  refine Derives.many_induction (motive := fun w => ∀ {count : Nat} {s : ParseState},
    s.Ahead (w ++ r) → ((Rule.stars count).step s).Leaves r) ?_ ?_ hw
  · exact fun h => .not_sees h hend (.done h)
  · intro u v hu _ ih count s h
    rw [Derives.text_iff.1 hu] at h
    exact .sees h (.tail (ih h.advance))

theorem leaves_names (hw : Derives bracedGrammar (.rule .declNames) w)
    (hend : r.head? ≠ some (.lexeme ",")) :
    ∀ {read : List Parse.DeclaredName} {s : ParseState}, s.Ahead (w ++ r) →
      ((Rule.names read).step s).Leaves r := by
  refine Derives.separated_induction (motive := fun w => ∀ {read : List Parse.DeclaredName}
    {s : ParseState}, s.Ahead (w ++ r) → ((Rule.names read).step s).Leaves r) ?_ ?_
      (Derives.rule_iff.1 hw)
  · intro u hu read s h
    obtain ⟨stars, last, rfl, hstars, hlast⟩ := Derives.append_iff.1 (Derives.rule_iff.1 hu)
    rw [Derives.terminal_iff.1 hlast, List.append_assoc] at h
    exact .call (leaves_stars hstars (by simp) h) fun count t ht =>
      .identifier ht fun name loc t ht => .not_sees ht hend (.done ht)
  · intro u v hu _ ih read s h
    obtain ⟨stars, last, rfl, hstars, hlast⟩ := Derives.append_iff.1 (Derives.rule_iff.1 hu)
    rw [Derives.terminal_iff.1 hlast, List.append_assoc, List.append_assoc] at h
    exact .call (leaves_stars hstars (by simp) h) fun count t ht =>
      .identifier ht fun name loc t ht => .sees ht (.tail (ih ht.advance))

/-- The dimension of an array. -/
def Form.dimension : Form := .text "[" ++ .terminal .number ++ .text "]"

/-- A type is dimensions, stars and the name of a type. -/
theorem type_cases : ∀ (n : Nat) {w : List Terminal}, w.length < n →
    Derives bracedGrammar (.rule .type) w → ∃ dims stars base, w = dims ++ (stars ++ [.lexeme base])
      ∧ Derives bracedGrammar (.many .dimension) dims
      ∧ Derives bracedGrammar (.many (.text "*")) stars ∧ (base = "int" ∨ base = "char") := by
  intro n
  induction n with
  | zero => exact fun hlength => absurd hlength (Nat.not_lt_zero _)
  | succ n ih =>
    intro w hlength h
    rcases Derives.or_iff.1 (Derives.rule_iff.1 h) with harray | hsimple
    · obtain ⟨dim, inner, rfl, hdim, hinner⟩ := Derives.append_iff.1 harray
      have hne : dim.length ≠ 0 := by
        obtain ⟨x, rfl, -⟩ := Derives.text_append_iff.1 (Derives.assoc_iff.1 hdim)
        simp
      rw [List.length_append] at hlength
      obtain ⟨dims, stars, base, rfl, hdims, hrest⟩ := ih (by omega) hinner
      exact ⟨dim ++ dims, stars, base, (List.append_assoc _ _ _).symm, .cons hdim hdims, hrest⟩
    · obtain ⟨stars, last, rfl, hstars, hlast⟩ := Derives.append_iff.1 hsimple
      rcases Derives.or_iff.1 (Derives.rule_iff.1 hlast) with hint | hchar
      · exact ⟨[], stars, "int", by rw [Derives.text_iff.1 hint]; rfl, .nil, hstars, .inl rfl⟩
      · exact ⟨[], stars, "char", by rw [Derives.text_iff.1 hchar]; rfl, .nil, hstars, .inr rfl⟩

theorem leaves_dimensions (hw : Derives bracedGrammar (.many .dimension) w)
    (hend : r.head? ≠ some (.lexeme "[")) :
    ∀ {read : List (Int64 × Nat)} {s : ParseState}, s.Ahead (w ++ r) →
      ((Rule.dimensions read).step s).Leaves r := by
  refine Derives.many_induction (motive := fun w => ∀ {read : List (Int64 × Nat)} {s : ParseState},
    s.Ahead (w ++ r) → ((Rule.dimensions read).step s).Leaves r) ?_ ?_ hw
  · exact fun h => .not_sees h hend (.done h)
  · intro u v hu _ ih read s h
    obtain ⟨u, rfl, hlen⟩ := Derives.text_append_iff.1 (Derives.assoc_iff.1 hu)
    obtain ⟨u, rfl, hclose⟩ := Derives.terminal_append_iff.1 hlen
    rw [Derives.text_iff.1 hclose] at h
    exact .sees h (.number h.advance fun len loc t ht => .expect ht fun t ht => .tail (ih ht))

theorem head?_stars (h : Derives bracedGrammar (.many (.text "*")) w) :
    w = [] ∨ w.head? = some (.lexeme "*") := by
  refine Derives.many_induction (motive := fun w => w = [] ∨ w.head? = some (.lexeme "*"))
    (.inl rfl) (fun u v hu _ _ => .inr ?_) h
  rw [Derives.text_iff.1 hu]
  rfl

/-- A type is read, whatever follows. -/
theorem leaves_type (hw : Derives bracedGrammar (.rule .type) w) (h : s.Ahead (w ++ r)) :
    (Rule.type.step s).Leaves r := by
  obtain ⟨dims, stars, base, rfl, hdims, hstars, hbase⟩ := type_cases _ (Nat.lt_succ_self _) hw
  rw [List.append_assoc, List.append_assoc] at h
  have hdone : ∀ {ty : Ty} {dimensions : List (Int64 × Nat)} {t : ParseState}, t.Ahead r →
      (Step.ofRun ((Parse.arrayTypes ty dimensions).run t) .done).Leaves r := fun ht =>
    .ofRun (Parse.checks_arrayTypes _ _) (Parse.blind_arrayTypes _ _) ht fun _ _ => .done
  have hbracket : (stars ++ ([Terminal.lexeme base] ++ r)).head? ≠ some (.lexeme "[") := by
    rcases head?_stars hstars with rfl | hstar
    · rcases hbase with rfl | rfl <;> simp
    · rw [List.head?_append, hstar]
      simp
  have hstar : ([Terminal.lexeme base] ++ r).head? ≠ some (.lexeme "*") := by
    rcases hbase with rfl | rfl <;> simp
  refine .call (leaves_dimensions hdims hbracket h) fun dimensions t ht =>
    .call (leaves_stars hstars hstar ht) fun depth u hu => ?_
  rcases hbase with rfl | rfl
  · exact .sees hu (hdone hu.advance)
  · exact .not_sees hu (by simp) (.sees hu (hdone hu.advance))

/-- What a type can start with. -/
theorem head?_type (h : Derives bracedGrammar (.rule .type) w) :
    ∃ t v, w = t :: v ∧ t ∈ [.lexeme "[", .lexeme "*", .lexeme "int", .lexeme "char"] := by
  rcases Derives.or_iff.1 (Derives.rule_iff.1 h) with harray | hsimple
  · obtain ⟨dim, inner, rfl, hdim, -⟩ := Derives.append_iff.1 harray
    obtain ⟨x, rfl, -⟩ := Derives.text_append_iff.1 (Derives.assoc_iff.1 hdim)
    exact ⟨_, _, rfl, by decide⟩
  · obtain ⟨stars, last, rfl, hstars, hlast⟩ := Derives.append_iff.1 hsimple
    rcases head?_stars hstars with rfl | hstar
    · rcases Derives.or_iff.1 (Derives.rule_iff.1 hlast) with hint | hchar
      · exact ⟨_, [], Derives.text_iff.1 hint, by decide⟩
      · exact ⟨_, [], Derives.text_iff.1 hchar, by decide⟩
    · obtain ⟨x, hx⟩ := List.head?_eq_some_iff.1 hstar
      exact ⟨_, x ++ last, by rw [hx]; rfl, by decide⟩

/-! ### Declarations -/

theorem leaves_values (hw : Derives bracedGrammar (.separated (.rule .expr)) w)
    (hend : r.head? = some (.lexeme ";")) :
    ∀ {read : List Node} {s : ParseState}, s.Ahead (w ++ r) →
      ((Rule.values read).step s).Leaves r := by
  refine Derives.separated_induction (motive := fun w => ∀ {read : List Node} {s : ParseState},
    s.Ahead (w ++ r) → ((Rule.values read).step s).Leaves r) ?_ ?_ hw
  · intro u hu read s h
    refine .call ((isChain_of_expr hu).leaves (exprEnds_of_head? hend (by decide)) h)
      fun value t ht => ?_
    exact .not_sees ht (by rw [hend]; simp) (.done ht)
  · intro u v hu _ ih read s h
    rw [List.append_assoc] at h
    refine .call ((isChain_of_expr hu).leaves (exprEnds_of_head? rfl (by decide)) h)
      fun value t ht => ?_
    exact .sees ht (.tail (ih ht.advance))

theorem leaves_initializers {count : Nat} (hw : Derives bracedGrammar .initializers w)
    (h : s.Ahead (w ++ r)) : ((Rule.initializers count).step s).Leaves r := by
  obtain ⟨u, last, rfl, hu, hlast⟩ := Derives.append_iff.1 hw
  rw [Derives.text_iff.1 hlast, List.append_assoc] at h
  rcases Derives.optional_iff.1 hu with hvalues | rfl
  · obtain ⟨u, rfl, hinner⟩ := Derives.text_append_iff.1 hvalues
    refine .sees h (.call (leaves_values hinner rfl h.advance) fun values t ht => ?_)
    exact .ite (fun _ => .expect ht fun t ht => .done ht) fun _ => .check trivial
  · exact .not_sees h (by simp) (.expect h fun t ht => .done ht)

/-- What is declared is read behind a `var`, and then something is done with it. -/
theorem leaves_declared {α : Type}
    {next : List Parse.DeclaredName → Ty → List Node → ParseState → Step α}
    (hw : Derives bracedGrammar (.rule .declNames ++ .rule .type ++ .initializers) w)
    (hnext : ∀ names ty values t, t.Ahead r → (next names ty values t).Leaves r)
    (h : s.Ahead (w ++ r)) :
    (Step.call (.names []) s fun names t => .call .type t fun ty u =>
      .call (.initializers names.length) u fun values v => next names ty values v).Leaves r := by
  obtain ⟨_, inits, rfl, hhead, hinits⟩ := Derives.append_iff.1 hw
  obtain ⟨names, type, rfl, hnames, htype⟩ := Derives.append_iff.1 hhead
  rw [List.append_assoc, List.append_assoc] at h
  refine .call (leaves_names hnames ?_ h) fun names t ht =>
    .call (leaves_type htype ht) fun ty u hu =>
      .call (leaves_initializers hinits hu) fun values v hv => hnext names ty values v hv
  obtain ⟨t, x, rfl, ht⟩ := head?_type htype
  rintro ⟨⟩
  exact absurd ht (by decide)

/-- What a declaration has behind its `var`. -/
theorem declared_iff {n : Nonterminal} (hn : n = .declaration ∨ n = .globalVar) :
    Derives bracedGrammar (.rule n) w ↔ ∃ v, w = .lexeme "var" :: v
      ∧ Derives bracedGrammar (.rule .declNames ++ .rule .type ++ .initializers) v := by
  have hassoc : ∀ {v}, Derives bracedGrammar (.rule .declNames ++ .rule .type ++ .initializers) v
      ↔ Derives bracedGrammar (.rule .declNames ++ (.rule .type ++ .initializers)) v :=
    Derives.assoc_iff
  have hproduction : Derives bracedGrammar (.rule n) w
      ↔ Derives bracedGrammar
        (.text "var" ++ .rule .declNames ++ .rule .type ++ .initializers) w := by
    rcases hn with rfl | rfl <;> exact Derives.rule_iff
  rw [hproduction, Derives.assoc_iff, Derives.assoc_iff, Derives.text_append_iff]
  simp only [hassoc]

theorem leaves_declaration {loc : Nat}
    (hw : Derives bracedGrammar (.rule .declNames ++ .rule .type ++ .initializers) w)
    (h : s.Ahead (w ++ r)) : ((Rule.declaration loc).step s).Leaves r :=
  leaves_declared hw (fun _ _ _ _ ht => .ofRun (Parse.checks_declareLocals _ _ _)
    (Parse.blind_declareLocals _ _ _) ht fun _ _ => .done) h

theorem leaves_global
    (hw : Derives bracedGrammar (.rule .declNames ++ .rule .type ++ .initializers) w)
    (h : s.Ahead (w ++ r)) : (Rule.global.step s).Leaves r :=
  leaves_declared hw (fun _ _ _ _ ht => .ofRun (Parse.checks_declareGlobals _ _ _)
    (Parse.blind_declareGlobals _ _ _) ht fun _ _ => .done) h

/-! ### Statements -/

/-- Statements shorter than `n` are read. -/
def StmtsAccepted (n : Nat) : Prop :=
  ∀ {isOpen : Bool} {w r : List Terminal} {s : ParseState}, w.length < n → Settled isOpen w →
    (isOpen = true → r.head? ≠ some (.lexeme "else")) → s.Ahead (w ++ r) →
      (Rule.stmt.step s).Leaves r

/-- What an item of a block can start with. -/
theorem head?_items (h : Derives bracedGrammar (.many (.rule .declaration ||| .rule .stmt)) w) :
    w = [] ∨ ∃ t v, w = t :: v ∧ t ∈ .lexeme "var" :: stmtStarts := by
  refine Derives.many_induction (motive := fun w => w = [] ∨ ∃ t v, w = t :: v
    ∧ t ∈ .lexeme "var" :: stmtStarts) (.inl rfl) (fun u v hu _ _ => .inr ?_) h
  rcases Derives.or_iff.1 hu with hdeclaration | hstmt
  · obtain ⟨x, rfl, -⟩ := (declared_iff (.inl rfl)).1 hdeclaration
    exact ⟨_, x ++ v, rfl, List.mem_cons_self⟩
  · obtain ⟨_, hsettled⟩ := Settled.of_stmt hstmt
    obtain ⟨t, x, rfl, ht⟩ := hsettled.exists_start
    exact ⟨t, x ++ v, rfl, List.mem_cons_of_mem _ ht⟩

/-- The items of a block are read up to its closing brace. -/
theorem leaves_items (hn : StmtsAccepted n)
    (hw : Derives bracedGrammar (.many (.rule .declaration ||| .rule .stmt)) w)
    (hlength : w.length < n) :
    ∀ {read : List Node} {s : ParseState}, s.Ahead (w ++ .lexeme "\x7d" :: r) →
      ((Rule.items read).step s).Leaves r := by
  refine Derives.many_induction (motive := fun w => w.length < n → ∀ {read : List Node}
    {s : ParseState}, s.Ahead (w ++ .lexeme "\x7d" :: r) → ((Rule.items read).step s).Leaves r)
    ?_ ?_ hw hlength
  · exact fun _ _ _ h => .sees h (.done h.advance)
  -- One item is read and typed, and the rest is shorter.
  · intro u v hu hv ih hlength read s h
    rw [List.append_assoc] at h
    rw [List.length_append] at hlength
    have hnext : ∀ (node : Node) (t : ParseState), t.Ahead (v ++ .lexeme "\x7d" :: r) →
        Step.Leaves (.ofResult (annotate t.symbols node) fun typed =>
          .call (.items (read ++ [typed])) t .done) r := fun node t ht =>
      .ofResult ((ends_untyped_annotate _ _).imp_good fun _ _ => trivial) fun typed =>
        .tail (ih (by omega) ht)
    rcases Derives.or_iff.1 hu with hdeclaration | hstmt
    · obtain ⟨x, rfl, hx⟩ := (declared_iff (.inl rfl)).1 hdeclaration
      exact .not_sees h (by simp) (.sees h (.call (leaves_declaration hx h.advance) hnext))
    · obtain ⟨isOpen, hsettled⟩ := Settled.of_stmt hstmt
      obtain ⟨t, x, hx, ht⟩ := hsettled.exists_start
      have hstart : ∀ text, Terminal.lexeme text ∉ stmtStarts →
          (u ++ (v ++ .lexeme "\x7d" :: r)).head? ≠ some (.lexeme text) := by
        rintro text htext hhead
        rw [hx] at hhead
        exact htext (Option.some.inj hhead ▸ ht)
      refine .not_sees h (hstart _ (by decide)) (.not_sees h (hstart _ (by decide))
        (.call (hn (by omega) hsettled (fun _ hhead => ?_) h) hnext))
      -- The item that follows does not start with `else`.
      rcases head?_items hv with rfl | ⟨t', y, rfl, ht'⟩
      · exact nomatch Option.some.inj hhead
      · obtain rfl := Option.some.inj hhead
        exact absurd ht' (by decide)

/-- A block is read behind its opening brace. -/
theorem leaves_block {loc : Nat} (hn : StmtsAccepted n)
    (hw : Derives bracedGrammar (.rule .compoundStmt) w) (hlength : w.length ≤ n)
    (h : s.Ahead (w ++ r)) : ((Rule.block loc).step s).Leaves r := by
  obtain ⟨items, last, rfl, hitems, hlast⟩ := Derives.append_iff.1 (Derives.rule_iff.1 hw)
  rw [Derives.text_iff.1 hlast, List.append_assoc] at h
  rw [Derives.text_iff.1 hlast, List.length_append, List.length_singleton] at hlength
  have hscope : s.enterScope.Ahead (items ++ .lexeme "\x7d" :: r) := h.of_rest rfl
  exact .call (leaves_items hn hitems (by omega) hscope) fun _ t ht => .done (ht.of_rest rfl)

/-- What does not start an expression is not seen in front of one. -/
theorem IsChain.head?_ne {t : Terminal} (hw : IsChain w) (ht : t ∉ exprStarts) :
    (w ++ r).head? ≠ some t := by
  obtain ⟨t', v, rfl, ht'⟩ := hw.exists_start
  rintro ⟨⟩
  exact ht ht'

theorem leaves_exprUnless {text : String} (htext : Terminal.lexeme text ∉ exprStarts)
    (hw : IsChain w) (hend : ExprEnds w r) (h : s.Ahead (w ++ r)) :
    ((Rule.exprUnless text).step s).Leaves r :=
  .not_sees h (hw.head?_ne htext) (.call (hw.leaves hend h) fun _ _ => .done)

/-- An expression that may be missing is read in front of the token that shows whether it is. -/
theorem leaves_exprUnless_optional {text : String} (htext : text = ";" ∨ text = "\x7b")
    (hw : Derives bracedGrammar (.optional (.rule .expr)) w)
    (h : s.Ahead (w ++ .lexeme text :: r)) :
    ((Rule.exprUnless text).step s).Leaves (.lexeme text :: r) := by
  have hstarts : Terminal.lexeme text ∉ exprStarts := by rcases htext with rfl | rfl <;> decide
  have hends : Terminal.lexeme text ∉ .lexeme "(" :: .lexeme "[" :: joiners := by
    rcases htext with rfl | rfl <;> decide
  rcases Derives.optional_iff.1 hw with hexpr | rfl
  · exact leaves_exprUnless hstarts (isChain_of_expr hexpr) (exprEnds_of_head? rfl hends) h
  · exact .sees h (.done h)

/-- The head of a loop is read in front of a block. -/
theorem leaves_loopHead (hw : Derives bracedGrammar (.optional .clauses ||| .rule .expr) w)
    (h : s.Ahead (w ++ .lexeme "\x7b" :: r)) :
    (Rule.loopHead.step s).Leaves (.lexeme "\x7b" :: r) := by
  rcases Derives.or_iff.1 hw with hclauses | hexpr
  · rcases Derives.optional_iff.1 hclauses with hclauses | rfl
    · obtain ⟨init, x, rfl, hinit, hx⟩ := Derives.append_iff.1
        (Derives.assoc_iff.1 (Derives.assoc_iff.1 (Derives.assoc_iff.1 hclauses)))
      obtain ⟨x, rfl, hrest⟩ := Derives.text_append_iff.1 hx
      obtain ⟨cond, x, rfl, hcond, hlast⟩ := Derives.append_iff.1 hrest
      obtain ⟨last, rfl, hstep⟩ := Derives.text_append_iff.1 hlast
      simp only [List.append_assoc, List.cons_append] at h
      -- A head that starts with a clause or a semicolon does not look like the block of the body.
      have hbrace : ∀ x, (init ++ Terminal.lexeme ";" :: x).head? ≠ some (.lexeme "\x7b") := by
        intro x
        rcases Derives.optional_iff.1 hinit with hexpr | rfl
        · exact (isChain_of_expr hexpr).head?_ne (by decide)
        · simp
      refine .not_sees h (hbrace _) (.call (leaves_exprUnless_optional (.inl rfl) hinit h)
        fun _ t ht => ?_)
      refine .sees ht (.call (leaves_exprUnless_optional (.inl rfl) hcond ht.advance)
        fun _ t ht => .expect ht fun t ht => ?_)
      exact .call (leaves_exprUnless_optional (.inr rfl) hstep ht) fun _ t ht => .done ht
    · exact .sees h (.done h)
  · have hchain := isChain_of_expr hexpr
    refine .not_sees h (hchain.head?_ne (by decide)) (.call (leaves_exprUnless (by decide) hchain
      (exprEnds_of_head? rfl (by decide)) h) fun _ t ht => .not_sees ht (by simp) (.done ht))

theorem stmtsAccepted_succ (hn : StmtsAccepted n) : StmtsAccepted (n + 1) := by
  intro isOpen w r s hlength hw hopen h
  rw [Rule.step]
  -- The first token tells the kind of the statement, and each kind has its own case.
  cases hw with
  | ret he =>
    simp only [List.cons_append, List.append_assoc, List.nil_append] at h
    exact .sees h (.call (he.leaves (exprEnds_of_head? rfl (by decide)) h.advance) fun _ t ht =>
      .expect ht fun t ht => .done ht)
  | @loop head body hhead hbody =>
    obtain ⟨items, rfl, -⟩ := Derives.text_append_iff.1 hbody
    simp only [List.cons_append, List.append_assoc] at h
    simp only [List.length_cons, List.length_append] at hlength
    refine .not_sees h (by simp) (.not_sees h (by simp) (.sees h
      (.call (leaves_loopHead hhead h.advance) fun _ t ht =>
        .call (hn ?_ (.block hbody) (fun hopen => absurd hopen Bool.false_ne_true) ht) fun _ t ht =>
          .done ht)))
    rw [List.length_cons]
    omega
  | block hblock =>
    obtain ⟨items, rfl, hitems⟩ := Derives.text_append_iff.1 hblock
    refine .not_sees h (by simp) (.not_sees h (by simp) (.not_sees h (by simp) (.sees h (.tail
      (leaves_block hn hitems ?_ h.advance)))))
    rw [List.length_cons] at hlength
    omega
  | empty =>
    exact .not_sees h (by simp) (.not_sees h (by simp) (.not_sees h (by simp) (.not_sees h (by simp)
      (.sees h (.done h.advance)))))
  | @expr e he =>
    rw [List.append_assoc] at h
    have hstart : ∀ {text}, Terminal.lexeme text ∉ exprStarts →
        (e ++ ([Terminal.lexeme ";"] ++ r)).head? ≠ some (.lexeme text) := he.head?_ne
    exact .not_sees h (hstart (by decide)) (.not_sees h (hstart (by decide)) (.not_sees h
      (hstart (by decide)) (.not_sees h (hstart (by decide)) (.not_sees h (hstart (by decide))
        (.call (he.leaves (exprEnds_of_head? rfl (by decide)) h) fun _ t ht =>
          .expect ht fun t ht => .done ht)))))
  | @ifThen isOpen e v he hend hv =>
    simp only [List.cons_append, List.append_assoc] at h
    simp only [List.length_cons, List.length_append] at hlength
    -- The condition ends where the statement behind it starts.
    have hends : ExprEnds e (v ++ r) := hend.congr (hv.head?_append r)
    exact .not_sees h (by simp) (.sees h (.call (he.leaves hends h.advance) fun _ t ht =>
      .call (hn (by omega) hv (fun _ => hopen rfl) ht) fun _ t ht =>
        .not_sees ht (hopen rfl) (.done ht)))
  | @ifElse isOpen e v x he hend hv hx =>
    simp only [List.cons_append, List.append_assoc] at h
    simp only [List.length_cons, List.length_append] at hlength
    have hends : ExprEnds e (v ++ .lexeme "else" :: (x ++ r)) := hend.congr (hv.head?_append _)
    exact .not_sees h (by simp) (.sees h (.call (he.leaves hends h.advance) fun _ t ht =>
      .call (hn (by omega) hv (fun hopen => absurd hopen Bool.false_ne_true) ht) fun _ t ht =>
        .sees ht (.call (hn (by omega) hx hopen ht.advance) fun _ t ht => .done ht)))

/-- **Every statement is read**, if no `else` follows that could belong to it. -/
theorem stmtsAccepted (n : Nat) : StmtsAccepted n := by
  induction n with
  | zero => exact fun hlength => absurd hlength (Nat.not_lt_zero _)
  | succ n ih => exact stmtsAccepted_succ ih

/-! ### Functions and programs -/

theorem leaves_parameters (hw : Derives bracedGrammar (.separated (.rule .param)) w) :
    ∀ {read : List (Nat × Ty)} {s : ParseState}, s.Ahead (w ++ .lexeme ")" :: r) →
      ((Rule.parameters read).step s).Leaves r := by
  refine Derives.separated_induction (motive := fun w => ∀ {read : List (Nat × Ty)}
    {s : ParseState}, s.Ahead (w ++ .lexeme ")" :: r) → ((Rule.parameters read).step s).Leaves r)
    ?_ ?_ hw
  · intro u hu read s h
    obtain ⟨type, rfl, htype⟩ := Derives.terminal_append_iff.1 (Derives.rule_iff.1 hu)
    refine .ite (fun _ => .identifier h fun name _ t ht => .call (leaves_type htype ht)
      fun ty t ht => ?_) fun _ => .check trivial
    have hadded := ht.of_rest (t := t.addLocal { name, ty := ty.decay }) rfl
    exact .sees hadded (.done hadded.advance)
  · intro u v hu _ ih read s h
    obtain ⟨type, rfl, htype⟩ := Derives.terminal_append_iff.1 (Derives.rule_iff.1 hu)
    simp only [List.cons_append, List.append_assoc] at h
    refine .ite (fun _ => .identifier h fun name _ t ht => .call (leaves_type htype ht)
      fun ty t ht => ?_) fun _ => .check trivial
    have hadded := ht.of_rest (t := t.addLocal { name, ty := ty.decay }) rfl
    exact .not_sees hadded (by simp) (.expect hadded fun _ ht => .tail (ih ht))

theorem leaves_parameterList (hw : Derives bracedGrammar (.rule .params) w)
    (h : s.Ahead (w ++ .lexeme ")" :: r)) : (Rule.parameterList.step s).Leaves r := by
  rcases Derives.optional_iff.1 (Derives.rule_iff.1 hw) with hparams | rfl
  · obtain ⟨u, x, hx, hu, -⟩ := Derives.append_iff.1 hparams
    obtain ⟨type, rfl, -⟩ := Derives.terminal_append_iff.1 (Derives.rule_iff.1 hu)
    refine .not_sees h ?_ (.tail (leaves_parameters hparams h))
    rw [hx]
    simp
  · exact .sees h (.done h.advance)

/-- A function is read. -/
theorem leaves_function (hw : Derives bracedGrammar (.rule .function) w) (h : s.Ahead (w ++ r)) :
    ∃ v, w = .lexeme "func" :: v ∧ (Rule.function.step s.advance).Leaves r := by
  have hproduction : Derives bracedGrammar (.text "func" ++ .terminal .identifier ++ .text "("
      ++ .rule .params ++ .text ")" ++ .rule .type ++ .text "\x7b" ++ .rule .compoundStmt) w :=
    Derives.rule_iff.1 hw
  simp only [Derives.assoc_iff] at hproduction
  obtain ⟨v, rfl, hname⟩ := Derives.text_append_iff.1 hproduction
  refine ⟨v, rfl, ?_⟩
  obtain ⟨v, rfl, hopen⟩ := Derives.terminal_append_iff.1 hname
  obtain ⟨v, rfl, hrest⟩ := Derives.text_append_iff.1 hopen
  obtain ⟨params, v, rfl, hparams, hclose⟩ := Derives.append_iff.1 hrest
  obtain ⟨v, rfl, htype⟩ := Derives.text_append_iff.1 hclose
  obtain ⟨result, v, rfl, hresult, hblock⟩ := Derives.append_iff.1 htype
  obtain ⟨body, rfl, hbody⟩ := Derives.text_append_iff.1 hblock
  simp only [List.cons_append, List.append_assoc] at h
  rw [Rule.step]
  refine .identifier h.advance fun name loc t ht => .ofRun (Parse.checks_checkFunction name loc)
    (Parse.blind_checkFunction name loc) ht fun _ u hu => ?_
  have hscope := hu.of_rest (t := { u with locals := [] }.enterScope) rfl
  refine .expect hscope fun t ht => .call (leaves_parameterList hparams ht) fun _ t ht =>
    .call (leaves_type hresult ht) fun _ t ht => .expect ht fun t ht =>
      .call (leaves_block (stmtsAccepted _) hbody (Nat.le_refl _) ht) fun _ t ht => ?_
  exact .ite (fun _ => .done (ht.of_rest rfl)) fun _ => .check trivial

/-- **Every declaration of a function or of globals is read.** -/
theorem leaves_topLevel (hw : Derives bracedGrammar (.rule .function ||| .rule .globalVar) w)
    (h : s.Ahead (w ++ r)) : (Rule.topLevel.step s).Leaves r := by
  rcases Derives.or_iff.1 hw with hfunction | hglobal
  · obtain ⟨v, rfl, hleaves⟩ := leaves_function hfunction h
    exact .sees h (.tail hleaves)
  · obtain ⟨v, rfl, hv⟩ := (declared_iff (.inr rfl)).1 hglobal
    exact .not_sees h (by simp) (.sees h (.tail (leaves_global hv h.advance)))

/-- **No token of a program is unwanted**, wherever reading it stops. -/
theorem ParseState.Units.not_isUnexpected {t : ParseState} {failure : Failure} (h : s.Units t)
    (hstop : t.StopsAt (some failure)) (hw : Derives bracedGrammar (.rule .program) w)
    (hahead : s.Ahead (w ++ [.eof])) : ¬ failure.IsUnexpected := by
  have hwords := Derives.many_iff.1 (Derives.rule_iff.1 hw)
  clear hw
  induction h generalizing w with
  | refl =>
    obtain ⟨words, hwords, rfl⟩ := hwords
    cases words with
    | nil => exact nomatch hahead.atEnd.symm.trans hstop.1
    | cons word words =>
      obtain ⟨hword, -⟩ := List.forall_mem_cons.1 hwords
      rw [List.flatten_cons, List.append_assoc] at hahead
      exact (leaves_topLevel hword hahead).fails hstop.2
  | next hs hread _ ih =>
    obtain ⟨words, hwords, rfl⟩ := hwords
    cases words with
    | nil => exact nomatch hahead.atEnd.symm.trans hs
    | cons word words =>
      obtain ⟨hword, hwords⟩ := List.forall_mem_cons.1 hwords
      rw [List.flatten_cons, List.append_assoc] at hahead
      exact ih hstop ((leaves_topLevel hword hahead).yields hread) ⟨words, hwords, rfl⟩

end PocketCompiler
