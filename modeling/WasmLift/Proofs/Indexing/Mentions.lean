import WasmLift.Proofs.Listing.Gadgets

/-!
# The names that a listing looks up

A program mentions the names of its functions, of the functions that they call, and of the entries
of its tables. Its name table has all of them (`Program.getElem?_mentioned`). A listing looks up no
other name: with any other entries for these, it is the same (`Listing.program_withNames`).
-/

namespace WasmLift

/-- Two actions that agree on a list may stand for each other along it. -/
theorem mapM_congr {m : Type → Type} [Monad m] [LawfulMonad m] {α β : Type} {f g : α → m β}
    {xs : List α} (h : ∀ x ∈ xs, f x = g x) : xs.mapM f = xs.mapM g := by
  induction xs with
  | nil => rfl
  | cons x xs ih =>
    obtain ⟨hx, hxs⟩ := List.forall_mem_cons.1 h
    rw [List.mapM_cons, List.mapM_cons, hx, ih hxs]

namespace Program

/-- The names that a program mentions: those of its functions, of the functions that they call, and
of the entries of its tables. -/
def mentioned (p : Program) : List NameId :=
  p.functions.map (·.name) ++ p.functions.flatMap (fun f => f.body?.toList.flatMap Expr.calls) ++
    p.tables.flatMap (·.entries)

section
variable {m : Module} {p : Program}

/-- The functions that the bodies call have names in their scope. -/
theorem Defines.calls {scope : Scope}
    {entries : List (FunctionCode × FuncType × NameId × String)} {functions : List Function}
    (h : List.Forall₂ (Defines scope) entries functions) :
    ∀ f ∈ functions, ∀ id ∈ f.body?.toList.flatMap Expr.calls, id ∈ scope.funcNames := by
  induction h with
  | nil => nofun
  | cons hdefines _ ih =>
    refine List.forall_mem_cons.2 ⟨fun id hid => ?_, ih⟩
    obtain ⟨locals, body, hkind, hexpand⟩ := hdefines.body
    obtain ⟨ops, declared, -, -, hbody⟩ := expandBody_ok hexpand
    have hid : id ∈ body.calls := by simpa [Function.body?, hkind] using hid
    have hfound := List.mem_map_of_mem (f := some) hid
    rw [Expr.ofOperators_calls hbody] at hfound
    obtain ⟨index, -, hindex⟩ := List.mem_map.1 hfound
    exact List.mem_of_getElem? hindex

/-- Every name that an expanded program mentions is that of one of its functions. -/
theorem exists_of_mentioned (hp : ofModule? m = .ok p) {id : NameId} (hid : id ∈ p.mentioned) :
    ∃ f ∈ p.functions, f.name = id := by
  rcases List.mem_append.1 hid with hid | hid
  · rcases List.mem_append.1 hid with hid | hid
    · exact List.mem_map.1 hid
    · obtain ⟨f, hf, hcall⟩ := List.mem_flatMap.1 hid
      obtain ⟨scope, imported, defined, hstages, hfunctions, -⟩ := stages_of_ofModule hp
      have hname : id ∈ scope.funcNames := by
        rcases List.mem_append.1 (hfunctions ▸ hf) with hf | hf
        · -- an imported function has no body
          have himported := (importFunctions_ok hstages.imported).2 f hf
          cases hkind : f.kind <;> simp_all [Function.isImported, Function.body?]
        · exact Defines.calls (defineFunctions_ok hstages.defined) f hf id hcall
      rw [hstages.names, ← hstages.functionNames, ← hfunctions] at hname
      exact List.mem_map.1 hname
  · obtain ⟨segment, hsegment, hentry⟩ := List.mem_flatMap.1 hid
    exact exists_of_entry hp hsegment hentry

/-- The name table of an expanded program has every name that the program mentions. -/
theorem getElem?_mentioned (hp : ofModule? m = .ok p) {id : NameId} (hid : id ∈ p.mentioned) :
    p.names[id.slot]? = some (p.names.get id) := by
  obtain ⟨f, hf, rfl⟩ := exists_of_mentioned hp hid
  obtain ⟨scope, imported, defined, hstages, hfunctions, hindices⟩ := stages_of_ofModule hp
  obtain ⟨i, hi⟩ := List.mem_iff_getElem?.1 hf
  obtain ⟨hname, hlt⟩ := hstages.name_eq (hfunctions ▸ hi)
  have hlength : p.names.length = m.functionTypes.length := by
    simpa using congrArg List.length hindices
  have hslot : i < p.names.length := by omega
  simp [hname, NameTable.get, hslot]

end

/-! ## Other name tables -/

/-- The program with another name table. -/
def withNames (p : Program) (names : NameTable) : Program :=
  { p with names := names }

/-- The name table agrees with that of the program on the names that it mentions. -/
def Agrees (p : Program) (names : NameTable) : Prop :=
  ∀ id ∈ p.mentioned, names.get id = p.names.get id

section
variable {p : Program} {names : NameTable} (h : p.Agrees names)
include h

/-- Tables that agree have the same name for a function. -/
theorem Agrees.function {f : Function} (hf : f ∈ p.functions) :
    names.get f.name = p.names.get f.name :=
  h _ (List.mem_append_left _ (List.mem_append_left _ (List.mem_map_of_mem hf)))

/-- Tables that agree have the same name for a function that is called. -/
theorem Agrees.call {f : Function} (hf : f ∈ p.functions) {body : Expr}
    (hbody : f.body? = some body) {id : NameId} (hid : id ∈ body.calls) :
    names.get id = p.names.get id := by
  refine h _ (List.mem_append_left _ (List.mem_append_right _ (List.mem_flatMap.2 ⟨f, hf, ?_⟩)))
  simpa [hbody] using hid

/-- Tables that agree have the same name for the entry of a table. -/
theorem Agrees.entry {segment : TableSegment} (hsegment : segment ∈ p.tables) {id : NameId}
    (hid : id ∈ segment.entries) : names.get id = p.names.get id :=
  h _ (List.mem_append_right _ (List.mem_flatMap.2 ⟨segment, hsegment, hid⟩))

/-- With a table that agrees, a function is named the same. -/
theorem functionName_withNames {f : Function} (hf : f ∈ p.functions) :
    (p.withNames names).functionName f = p.functionName f :=
  congrArg Identifier.name (h.function hf)

/-- The index of a function is the same with a table that agrees. -/
theorem functionIndex_withNames {f : Function} (hf : f ∈ p.functions) :
    (p.withNames names).functionIndex f = p.functionIndex f :=
  congrArg Identifier.index (h.function hf)

/-- Whether a table has a function does not depend on the names. -/
theorem isInTable_withNames (index : Nat) :
    (p.withNames names).isInTable index = p.isInTable index := by
  rw [Bool.eq_iff_iff]
  simp only [isInTable, List.any_eq_true, beq_iff_eq]
  constructor
  · rintro ⟨segment, hsegment, id, hid, hindex⟩
    exact ⟨segment, hsegment, id, hid, h.entry hsegment hid ▸ hindex⟩
  · rintro ⟨segment, hsegment, id, hid, hindex⟩
    exact ⟨segment, hsegment, id, hid, (h.entry hsegment hid).symm ▸ hindex⟩

end

end Program

/-! ## Bodies -/

namespace Walk

variable {σ : Type} {p : Program} {names : NameTable} {d : Dialect σ}

/-- A node looks up the name of the function that it calls. -/
theorem compose_withNames {e : Expr} (h : ∀ id ∈ e.callee?, names.get id = p.names.get id)
    (cs : List Code) : compose (p.withNames names) d e cs = compose p d e cs := by
  cases e with
  | call target args ty =>
    show (pure (.call (names.get target).name cs) : Walk σ Code) = _
    rw [h target rfl]
    rfl
  | br label condition value =>
    cases condition <;> cases value <;> rcases cs with _ | ⟨a, _ | ⟨b, _ | _⟩⟩ <;> rfl
  | switch labels fallback condition value =>
    cases value <;> rcases cs with _ | ⟨a, _ | ⟨b, _ | _⟩⟩ <;> rfl
  | _ => rcases cs with _ | ⟨a, _ | ⟨b, _ | ⟨c, _ | _⟩⟩⟩ <;> rfl

/-- Trees are written the same if each of them is. -/
theorem exprs_withNames {es : List Expr}
    (hes : ∀ e ∈ es, expr (p.withNames names) d e = expr p d e) :
    exprs (p.withNames names) d es = exprs p d es := by
  induction es with
  | nil => rfl
  | cons e rest ih =>
    obtain ⟨he, hrest⟩ := List.forall_mem_cons.1 hes
    rw [exprs, exprs, he, ih hrest]

/-- Statements are written the same if each of their trees is. -/
theorem statements_withNames {es : List Expr}
    (hes : ∀ e ∈ es, expr (p.withNames names) d e = expr p d e) :
    statements (p.withNames names) d es = statements p d es := by
  induction es with
  | nil => rfl
  | cons e rest ih =>
    obtain ⟨he, hrest⟩ := List.forall_mem_cons.1 hes
    rw [statements, statements, he, ih hrest]

/-- A body is written the same if each of its trees is. -/
theorem bodyStatements_withNames {es : List Expr}
    (hes : ∀ e ∈ es, expr (p.withNames names) d e = expr p d e) :
    bodyStatements (p.withNames names) d es = bodyStatements p d es := by
  induction es with
  | nil => rfl
  | cons e rest ih =>
    obtain ⟨he, hrest⟩ := List.forall_mem_cons.1 hes
    rw [bodyStatements, bodyStatements, he, ih hrest]

/-- A tree looks up the names of the functions that it calls. -/
theorem expr_withNames {e : Expr} (h : ∀ id ∈ e.calls, names.get id = p.names.get id) :
    expr (p.withNames names) d e = expr p d e := by
  induction e using Expr.induct with
  | h e ih =>
    rw [Expr.calls, Expr.gather_eq] at h
    have hown : ∀ id ∈ e.callee?, names.get id = p.names.get id := fun id hid =>
      h id (List.mem_append_right _ (Option.mem_toList.2 hid))
    have hchildren : ∀ c ∈ e.children, expr (p.withNames names) d c = expr p d c := fun c hc =>
      ih c hc fun id hid => h id (List.mem_append_left _ (List.mem_flatMap.2 ⟨c, hc, hid⟩))
    cases hsimple : e.isSimple with
    | true =>
      rw [expr_simple hsimple, expr_simple hsimple, exprs_withNames hchildren]
      exact bind_congr fun cs => compose_withNames hown cs
    | false =>
      cases e with
      | block label children ty =>
        have hstatements : statements (p.withNames names) d children = statements p d children :=
          statements_withNames hchildren
        rw [expr, expr, hstatements]
      | ite condition ifTrue ifFalse ty =>
        rw [expr, expr, hchildren condition (.head _), hchildren ifTrue (.tail _ (.head _))]
        cases ifFalse with
        | none => rfl
        | some e => rw [option, option, hchildren e (.tail _ (.tail _ (.head _)))]
      | loop label body ty => rw [expr, expr, hchildren body (.head _)]
      | _ => cases hsimple

/-- A function looks up the names of the functions that its body calls. -/
theorem function_withNames {f : Function}
    (h : ∀ body, f.body? = some body → ∀ id ∈ body.calls, names.get id = p.names.get id) :
    function (p.withNames names) d f = function p d f := by
  unfold function
  cases hbody : f.body? with
  | none => rfl
  | some body =>
    have hcalls := h body hbody
    cases body with
    | block label children ty =>
      have hchildren : ∀ e ∈ children, expr (p.withNames names) d e = expr p d e := by
        intro e he
        refine expr_withNames fun id hid => hcalls id ?_
        rw [Expr.calls, Expr.gather_eq]
        exact List.mem_append_left _ (List.mem_flatMap.2 ⟨e, he, hid⟩)
      simp only [bodyStatements_withNames hchildren]
    | nop => rfl
    | _ => simp only [expr_withNames hcalls]

end Walk

/-! ## Listings -/

namespace Listing

section
variable {p : Program} {names : NameTable} (h : p.Agrees names) {f : Function}
  (hf : f ∈ p.functions)
include h hf

/-- The header of a function is the same with a table that agrees. -/
theorem header_withNames (level : Int) (kind : String) :
    header (p.withNames names) f level kind = header p f level kind := by
  unfold header
  rw [Program.functionIndex_withNames h hf, Program.functionName_withNames h hf]

/-- The plain listing of a function is the same with a table that agrees. -/
theorem direct_withNames (level : Int) : direct (p.withNames names) f level = direct p f level := by
  have hstatements : Direct.statements (p.withNames names) f = Direct.statements p f := by
    unfold Direct.statements
    rw [Walk.function_withNames fun body hbody id hid => h.call hf hbody hid]
    rfl
  rw [direct, direct, hstatements, header_withNames h hf]

/-- The listing with a frame is the same with a table that agrees. -/
theorem framed_withNames (memory : MemoryImage) (frameSize : Int) :
    framed (p.withNames names) memory f frameSize = framed p memory f frameSize := by
  have hstatements : Framed.statements (surroundings (p.withNames names) memory f) =
      Framed.statements (surroundings p memory f) := by
    unfold Framed.statements
    show (Walk.function (p.withNames names) _ f).run.run _ = (Walk.function p _ f).run.run _
    rw [Walk.function_withNames fun body hbody id hid => h.call hf hbody hid]
    rfl
  unfold framed framedIn
  rw [hstatements]
  rcases Framed.statements (surroundings p memory f) with ⟨cause | statements, st⟩
  · rfl
  · dsimp only [surroundings]
    rw [Program.functionName_withNames h hf, header_withNames h hf]

/-- An import is declared the same with a table that agrees. -/
theorem importDeclaration_withNames :
    importDeclaration (p.withNames names) f = importDeclaration p f := by
  rw [importDeclaration, importDeclaration, Program.functionIndex_withNames h hf,
    Program.functionName_withNames h hf]

/-- A function is listed the same with a table that agrees. -/
theorem function_withNames (memory : MemoryImage) :
    function (p.withNames names) memory f = function p memory f := by
  have hstyle (style : Style) :
      inStyle (p.withNames names) memory f style = inStyle p memory f style := by
    cases style with
    | imported => rw [inStyle, inStyle, importDeclaration_withNames h hf]
    | framed frameSize => exact framed_withNames h hf memory frameSize
    | direct level => rw [inStyle, inStyle, direct_withNames h hf]
  have hcompression (index : Nat) :
      (p.withNames names).compression index = p.compression index := rfl
  simp only [function, Program.functionIndex_withNames h hf, hstyle, hcompression]

/-- A fragment is the same with a table that agrees. -/
theorem fragment_withNames (memory : MemoryImage) :
    fragment (p.withNames names) memory f = fragment p memory f := by
  rw [fragment, fragment, Program.functionIndex_withNames h hf, Program.functionName_withNames h hf,
    function_withNames h hf]

end

section
variable {p : Program} {names : NameTable} (h : p.Agrees names)
include h

/-- The same functions are listed with a table that agrees. -/
theorem listedFunctions_withNames (gadgets : Bool) :
    listedFunctions (p.withNames names) gadgets = listedFunctions p gadgets := by
  refine List.filter_congr fun f hf => ?_
  rw [Program.functionIndex_withNames h hf, Program.isInTable_withNames h]

/-- Tables are printed the same with a table of names that agrees. -/
theorem tableTexts_withNames {segments : List TableSegment}
    (hsegments : ∀ segment ∈ segments, segment ∈ p.tables) (number : Nat) :
    tableTexts (p.withNames names) number segments = tableTexts p number segments := by
  induction segments generalizing number with
  | nil => rfl
  | cons segment rest ih =>
    obtain ⟨hsegment, hrest⟩ := List.forall_mem_cons.1 hsegments
    have hentries : segment.entries.mapM (tableEntry (p.withNames names)) =
        segment.entries.mapM (tableEntry p) := by
      refine mapM_congr fun id hid => ?_
      unfold tableEntry
      rw [← h.entry hsegment hid]
      rfl
    unfold tableTexts tableText tableEntries
    rw [hentries, ih hrest]

/-- A listing looks up the names that the program mentions, and no other. -/
theorem program_withNames (gadgets : Bool) :
    program (p.withNames names) gadgets = program p gadgets := by
  have hfragments (memory : MemoryImage) :
      (listedFunctions p gadgets).mapM (fragment (p.withNames names) memory) =
        (listedFunctions p gadgets).mapM (fragment p memory) :=
    mapM_congr fun f hf => fragment_withNames h (List.mem_of_mem_filter hf) memory
  have htail (memory : MemoryImage) : tail (p.withNames names) memory = tail p memory := by
    unfold tail
    exact congrArg (· >>= _) (tableTexts_withNames h (fun _ hsegment => hsegment) 0)
  unfold program
  rw [listedFunctions_withNames h]
  simp only [hfragments, htail]
  rfl

end

end Listing

end WasmLift
