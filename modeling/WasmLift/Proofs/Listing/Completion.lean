import Mathlib.Algebra.Group.Int.Defs
import WasmLift.Listing.Program
import WasmLift.Proofs.Execution.Nodes
import WasmLift.Proofs.Program.Resolution
import WasmLift.Proofs.Propagation.Writing

/-!
# What can stop a listing

A walk over a body whose local indices are all in range comes to its end, in any dialect that can
write these locals (`Walk.function_returns`). The bodies of an expanded program are such, and the
level of a function says imported only if the function is. So no function stops the listing of an
expanded program: it fails for a toolchain that is not known, a memory that cannot be laid out, or a
table whose offset is not a constant, and for nothing else (`Listing.program_fails_iff`).
-/

namespace WasmLift

section
variable {σ ε α β : Type} {P : σ → Prop}

/-- From every state with the property, the computation comes to a result and to a state with the
property. -/
def Returns (P : σ → Prop) (x : ExceptT ε (StateM σ) α) : Prop :=
  ∀ s, P s → ∃ a s', x s = (.ok a, s') ∧ P s'

/-- From every state, the computation comes to an error. -/
def Fails (x : ExceptT ε (StateM σ) α) : Prop :=
  ∀ s, ∃ e s', x s = (.error e, s')

/-- A result that is given at once is come to. -/
theorem Returns.pure {a : α} : Returns P (pure a : ExceptT ε (StateM σ) α) :=
  fun s hs => ⟨a, s, rfl, hs⟩

/-- Two steps come to a result if both do, the second from whatever the first gives. -/
theorem Returns.bind {x : ExceptT ε (StateM σ) α} {f : α → ExceptT ε (StateM σ) β}
    (hx : Returns P x) (hf : ∀ a, Returns P (f a)) : Returns P (x >>= f) := by
  intro s hs
  obtain ⟨a, s₁, ha, hs₁⟩ := hx s hs
  obtain ⟨b, s₂, hb, hs₂⟩ := hf a s₁ hs₁
  exact ⟨b, s₂, by rw [bind_of_ok ha, hb], hs₂⟩

/-- A change of the state comes to its end, and keeps the property if the change does. -/
theorem Returns.modify {f : σ → σ} (hf : ∀ s, P s → P (f s)) :
    Returns P (modify f : ExceptT ε (StateM σ) PUnit) :=
  fun s hs => ⟨⟨⟩, f s, rfl, hf s hs⟩

/-- A step that looks at the state returns if it does for whatever it sees. -/
theorem Returns.get {f : σ → ExceptT ε (StateM σ) β} (hf : ∀ s, P s → Returns P (f s)) :
    Returns P ((get : ExceptT ε (StateM σ) σ) >>= f) :=
  fun s hs => hf s hs s hs

/-- A step for each element of a list comes to a result if it does for every element. -/
theorem Returns.mapM {f : α → ExceptT ε (StateM σ) β} {xs : List α}
    (hf : ∀ x ∈ xs, Returns P (f x)) : Returns P (xs.mapM f) := by
  induction xs with
  | nil => exact .pure
  | cons x xs ih =>
    rw [List.mapM_cons]
    refine (hf x (.head _)).bind fun _ => ?_
    exact (ih fun y hy => hf y (.tail _ hy)).bind fun _ => .pure

/-- What fails, fails whatever would come after it. -/
theorem Fails.bind_left {x : ExceptT ε (StateM σ) α} {f : α → ExceptT ε (StateM σ) β}
    (hx : Fails x) : Fails (x >>= f) := by
  intro s
  obtain ⟨e, s', he⟩ := hx s
  exact ⟨e, s', bind_of_error he f⟩

/-- A step that returns fails if what comes after it fails for every result. -/
theorem Fails.bind_right {x : ExceptT ε (StateM σ) α} {f : α → ExceptT ε (StateM σ) β}
    (hx : Returns (fun _ => True) x) (hf : ∀ a, Fails (f a)) : Fails (x >>= f) := by
  intro s
  obtain ⟨a, s₁, ha, -⟩ := hx s trivial
  obtain ⟨e, s', he⟩ := hf a s₁
  exact ⟨e, s', by rw [bind_of_ok ha, he]⟩

end

/-! ## The walk over a body -/

/-- The dialect can write the first `n` locals, and every access to memory. -/
structure Dialect.Writes {σ : Type} (P : σ → Prop) (d : Dialect σ) (n : Nat) : Prop where
  localGet : ∀ index, index < n → Returns P (d.localGet index)
  localSet : ∀ index value tee, index < n → Returns P (d.localSet index value tee)
  load : ∀ address arg ty, Returns P (d.load address arg ty)
  store : ∀ address value ty arg, Returns P (d.store address value ty arg)

namespace Walk

variable {σ : Type} {P : σ → Prop} {p : Program} {d : Dialect σ} {n : Nat}

/-- To come to a result lasts over the steps of a walk. -/
theorem returns_lasting : Lasting fun α (x : Walk σ α) => Returns P x :=
  ⟨.pure, .bind⟩

/-- A node is put together from its written children unless it names a local out of range. -/
theorem compose_returns (hd : d.Writes P n) {e : Expr} (he : ∀ i, e.ownLocal? = some i → i < n)
    (cs : List Code) : Returns P (compose p d e cs) := by
  unfold compose
  split
  case h_1 index _ => exact hd.localGet index (he index rfl)
  case h_2 index _ tee _ v => exact hd.localSet index v tee (he index rfl)
  case h_19 => exact hd.load _ _ _
  case h_20 => exact hd.store _ _ _ _
  all_goals exact .pure

/-- The walk over a function whose local indices are in range comes to its end. -/
theorem function_returns (hd : d.Writes P n) {f : Function}
    (hf : ∀ body, f.body? = some body → body.Below n) : Returns P (function p d f) := by
  refine function_lasting returns_lasting fun body hbody => Expr.all_iff.2 fun e he cs => ?_
  refine compose_returns hd (fun i hi => ?_) cs
  refine Expr.below_iff.1 (hf body hbody) i (List.mem_flatMap.2 ⟨e, he, ?_⟩)
  exact Option.mem_toList.2 hi

end Walk

/-- The local indices of a function are those of its parameters and locals. -/
def Function.InRange (f : Function) : Prop :=
  ∀ body, f.body? = some body → body.Below (f.params.length + f.locals.length)

namespace Direct

variable {p : Program} {f : Function}

/-- A local in range is a variable of the function. -/
theorem variableOf_returns {index : Nat} (hindex : index < f.params.length + f.locals.length) :
    Returns (fun _ => True) (variableOf f index) := by
  unfold variableOf lookup?
  by_cases hparam : index < f.params.length
  · rw [if_pos hparam]
    exact .pure
  · rw [if_neg hparam, if_pos hindex]
    exact .pure

/-- The plain dialect writes all locals in range. -/
theorem dialect_writes :
    (dialect p f).Writes (fun _ => True) (f.params.length + f.locals.length) where
  localGet _ hindex := variableOf_returns hindex
  localSet _ _ _ hindex := (variableOf_returns hindex).bind fun _ => .pure
  load _ _ _ := .pure
  store _ _ _ _ := .pure

/-- The body of a function whose local indices are in range is written in the plain dialect. -/
theorem statements_ok (hf : f.InRange) : ∃ nodes, statements p f = .ok nodes := by
  obtain ⟨nodes, st, hrun, -⟩ := Walk.function_returns (p := p) dialect_writes hf () trivial
  exact ⟨nodes, congrArg Prod.fst hrun⟩

end Direct

namespace Framed

variable {s : Surroundings}

/-- There is a register for every local. -/
def Registered (s : Surroundings) (st : FrameState) : Prop :=
  st.registers.length = s.function.locals.length

/-- To make a local a variable comes to an end, and touches no register. -/
theorem makePlain_returns (index : Nat) : Returns (Registered s) (makePlain index) :=
  .modify fun _ hst => hst

/-- To record a value comes to an end, and leaves as many registers. -/
theorem record_returns (slot : Nat) (value : Option Code) :
    Returns (Registered s) (record slot value) :=
  .modify fun _ hst => by simpa [Registered] using hst

/-- A local in range that is no parameter has a register. -/
theorem register_returns {index : Nat}
    (hindex : index < s.function.params.length + s.function.locals.length)
    (hparam : ¬index < s.function.params.length) : Returns (Registered s) (register s index) := by
  refine .get fun st hst => ?_
  have hslot : index - s.function.params.length < st.registers.length := by
    rw [hst]
    omega
  rw [if_pos hslot]
  exact .pure

/-- A use of a local in range is written. -/
theorem localGet_returns {index : Nat}
    (hindex : index < s.function.params.length + s.function.locals.length) :
    Returns (Registered s) (localGet s index) := by
  unfold localGet
  by_cases hparam : index < s.function.params.length
  · rw [if_pos hparam]
    exact .pure
  · rw [if_neg hparam]
    refine (register_returns hindex hparam).bind fun slot => .get fun st hst => ?_
    split
    · exact .pure
    · split
      · exact .pure
      · exact (makePlain_returns index).bind fun _ => .pure

/-- An assignment to a local in range is written. -/
theorem localSet_returns {index : Nat} (value : Code) (tee : Bool)
    (hindex : index < s.function.params.length + s.function.locals.length) :
    Returns (Registered s) (localSet s index value tee) := by
  unfold localSet
  by_cases hparam : index < s.function.params.length
  · rw [if_pos hparam]
    exact .pure
  · rw [if_neg hparam]
    refine (register_returns hindex hparam).bind fun slot => .get fun st hst => ?_
    split
    · refine (makePlain_returns index).bind fun _ => ?_
      exact (record_returns slot none).bind fun _ => .pure
    · exact (record_returns slot (some value)).bind fun _ => .pure

/-- Every access to memory is written, as a slot or as an address. -/
theorem access_returns (address : Code) (arg : MemArg) (ty : Ty) :
    Returns (Registered s) (access address arg ty) := by
  unfold access
  split
  · exact .pure
  · refine .get fun st _ => ?_
    split
    · exact .bind (.modify fun _ hst => hst) fun _ => .pure
    · exact .bind (.modify fun _ hst => hst) fun _ => .pure

/-- The dialect of stack frames writes all locals in range, as long as there is a register for each.
-/
theorem dialect_writes :
    (dialect s).Writes (Registered s) (s.function.params.length + s.function.locals.length) where
  localGet _ := localGet_returns
  localSet _ := localSet_returns
  load := access_returns
  store address _ ty arg := (access_returns address arg ty).bind fun _ => .pure

/-- The body of a function whose local indices are in range is written with its stack frame. -/
theorem statements_ok (hf : s.function.InRange) :
    ∃ nodes st, statements s = (.ok nodes, st) := by
  have hinitial : Registered s (initial s) := List.length_replicate
  obtain ⟨nodes, st, hrun, -⟩ :=
    Walk.function_returns (p := s.program) dialect_writes hf (initial s) hinitial
  exact ⟨nodes, st, hrun⟩

end Framed

/-! ## Expanded programs -/

namespace Program

variable {m : Module} {p : Program}

/-- The functions and the tables of an expanded program come from the stages of the expansion, and
the names are bound in order. -/
theorem stages_of_ofModule (hp : ofModule? m = .ok p) :
    ∃ scope imported defined, Stages m scope imported defined p.tables ∧
      p.functions = imported ++ defined ∧
      p.names.map (·.index) = List.range m.functionTypes.length := by
  obtain ⟨scope, imported, defined, tables, names, hstages, hresolve, rfl⟩ := ofModule?_eq_ok.1 hp
  obtain ⟨names', hresolve', -, hindices⟩ := hstages.bound
  cases hresolve.symm.trans hresolve'
  exact ⟨scope, imported, defined, hstages, rfl, hindices⟩

/-- A function of an expanded program is the one at its index. -/
theorem getElem?_functionIndex (hp : ofModule? m = .ok p) {f : Function} (hf : f ∈ p.functions) :
    p.functions[p.functionIndex f]? = some f := by
  obtain ⟨scope, imported, defined, hstages, hfunctions, hindices⟩ := stages_of_ofModule hp
  obtain ⟨i, hi⟩ := List.mem_iff_getElem?.1 hf
  obtain ⟨hname, hlt⟩ := hstages.name_eq (hfunctions ▸ hi)
  have hindex : p.functionIndex f = i := by
    rw [functionIndex, hname]
    exact indexOf_mk hindices hlt
  rw [hindex, hi]

/-- A table entry of an expanded program names one of its functions. -/
theorem indexOf_lt_of_entry (hp : ofModule? m = .ok p) {segment : TableSegment}
    (hsegment : segment ∈ p.tables) {id : NameId} (hid : id ∈ segment.entries) :
    p.indexOf id < p.functions.length := by
  obtain ⟨scope, imported, defined, hstages, hfunctions, hindices⟩ := stages_of_ofModule hp
  obtain ⟨hentries, hbounds⟩ := hstages.tableEntries
  have hmem : segment.entries ∈ m.elements.map (·.functions.map NameId.mk) :=
    hentries ▸ List.mem_map_of_mem hsegment
  obtain ⟨element, helement, heq⟩ := List.mem_map.1 hmem
  obtain ⟨index, hindex, rfl⟩ := List.mem_map.1 (heq ▸ hid)
  have hlt := hbounds element helement index hindex
  have hlength : p.functions.length = m.functionTypes.length := by
    simpa [hfunctions] using congrArg List.length hstages.functionNames
  rw [indexOf_mk hindices hlt, hlength]
  exact hlt

/-- The functions that are defined from code touch their own parameters and locals only, since
rebuilding checks the index of every local. -/
theorem Defines.inRange {scope : Scope}
    {entries : List (FunctionCode × FuncType × NameId × String)} {functions : List Function}
    (h : List.Forall₂ (Defines scope) entries functions) : ∀ f ∈ functions, f.InRange := by
  induction h with
  | nil => nofun
  | @cons entry f _ _ hdefines _ ih =>
    refine List.forall_mem_cons.2 ⟨fun body hbody => ?_, ih⟩
    obtain ⟨locals, body', hkind, hexpand⟩ := hdefines.body
    obtain ⟨ops, declared, -, -, hops⟩ := expandBody_ok hexpand
    have hbelow := Expr.ofOperators_below hops
    simp only [Function.body?, hkind, Option.some.injEq] at hbody
    simpa [Function.locals, hkind, hbody] using hbelow

/-- The body of a function of an expanded program touches its own parameters and locals only. -/
theorem inRange_of_mem (hp : ofModule? m = .ok p) {f : Function} (hf : f ∈ p.functions) :
    f.InRange := by
  obtain ⟨scope, imported, defined, hstages, hfunctions, -⟩ := stages_of_ofModule hp
  rcases List.mem_append.1 (hfunctions ▸ hf) with hf | hf
  · intro body hbody
    have himported := (importFunctions_ok hstages.imported).2 f hf
    cases hkind : f.kind <;> simp_all [Function.isImported, Function.body?]
  · exact Defines.inRange (defineFunctions_ok hstages.defined) f hf

end Program

/-! ## The parts of a listing -/

namespace Logged

variable {α : Type}

/-- To report something comes to its end. -/
theorem emit_returns (e : Event) : Returns (fun _ => True) (emit e) :=
  .modify fun _ _ => trivial

/-- What has a result returns it. -/
theorem ofExcept_returns {x : Except Error α} (hx : ∃ a, x = .ok a) :
    Returns (fun _ => True) (ofExcept x) := by
  obtain ⟨a, rfl⟩ := hx
  exact .pure

/-- What is an error fails. -/
theorem ofExcept_fails {x : Except Error α} (hx : ∃ e, x = .error e) : Fails (ofExcept x) := by
  obtain ⟨e, rfl⟩ := hx
  exact fun log => ⟨e, log, rfl⟩

/-- To say within which step an error arose changes no result. -/
theorem within_returns {x : Logged α} (step : Step) (hx : Returns (fun _ => True) x) :
    Returns (fun _ => True) (within step x) := by
  intro log hlog
  obtain ⟨a, log', ha, -⟩ := hx log hlog
  refine ⟨a, log', ?_, trivial⟩
  simp only [within, tryCatch, tryCatchThe, MonadExceptOf.tryCatch, ExceptT.tryCatch, ExceptT.mk,
    bind, StateT.bind, ha]
  rfl

end Logged

namespace Listing

variable {m : Module} {p : Program} {f : Function}

/-- The offset of a segment is an integer constant that is an address. -/
def HasOffset (segment : TableSegment) : Prop :=
  ∃ value n, segment.offset = .const value ∧ value.asInteger? = some n ∧ 0 ≤ n ∧ n < 2 ^ 64

/-- The plain text of a function whose local indices are in range is printed. -/
theorem direct_ok (hf : f.InRange) (level : Int) : ∃ text, direct p f level = .ok text := by
  obtain ⟨nodes, hnodes⟩ := Direct.statements_ok (p := p) hf
  exact ⟨_, bind_eq_ok.2 ⟨nodes, hnodes, rfl⟩⟩

/-- To report a list of events comes to its end. -/
theorem emitAll_returns (events : List Event) :
    Returns (fun _ => True) (forIn events PUnit.unit fun event _ => do
      Logged.emit event
      return ForInStep.yield PUnit.unit : Logged PUnit) := by
  induction events with
  | nil => exact .pure
  | cons event rest ih =>
    rw [List.forIn_cons]
    refine .bind (.bind (Logged.emit_returns event) fun _ => .pure) fun step => ?_
    cases step with
    | done => exact .pure
    | yield => exact ih

/-- The text with a stack frame of a function whose local indices are in range is printed. -/
theorem framed_returns (hf : f.InRange) (memory : MemoryImage) (frameSize : Int) :
    Returns (fun _ => True) (framed p memory f frameSize) := by
  obtain ⟨nodes, st, hnodes⟩ := Framed.statements_ok (s := surroundings p memory f) hf
  unfold framed framedIn
  rw [hnodes]
  refine (emitAll_returns st.events).bind fun _ => ?_
  exact (Logged.emit_returns _).bind fun _ => .pure

/-- The declaration of an imported function is printed. -/
theorem importDeclaration_ok (hf : f.isImported = true) :
    ∃ text, importDeclaration p f = .ok text := by
  unfold importDeclaration
  cases hkind : f.kind with
  | imported moduleName base => exact ⟨_, rfl⟩
  | defined locals body => simp [Function.isImported, hkind] at hf

/-- The level of a function says imported for imported functions only. -/
theorem ofCompression_classify (stackPointer : Option Nat) :
    Style.ofCompression (Compression.classify stackPointer f) = .imported ↔
      f.isImported = true := by
  unfold Compression.classify Compression.ofStatements Function.isImported
  repeat' split
  all_goals simp_all [Style.ofCompression]

/-- Every style but that of imports suits every function. -/
theorem inStyle_returns (hf : f.InRange) (memory : MemoryImage) {style : Style}
    (hstyle : style = .imported → f.isImported = true) :
    Returns (fun _ => True) (inStyle p memory f style) := by
  cases style with
  | imported =>
    obtain ⟨text, htext⟩ := importDeclaration_ok (p := p) (hstyle rfl)
    exact Logged.ofExcept_returns ⟨text, mapError_eq_ok.2 htext⟩
  | framed frameSize => exact framed_returns hf memory frameSize
  | direct level =>
    obtain ⟨text, htext⟩ := direct_ok (p := p) hf level
    exact Logged.ofExcept_returns ⟨text, mapError_eq_ok.2 htext⟩

/-- To report the level of a function comes to its end. -/
theorem reportCompression_returns (index : Nat) (compression : Compression) :
    Returns (fun _ => True) (reportCompression index compression) := by
  refine (Logged.emit_returns _).bind fun _ => ?_
  unfold reportKept
  split
  · exact Logged.emit_returns _
  · exact .pure

/-- The fragment of a function that stands at its own index is printed, in the style of its level.
-/
theorem fragment_returns (hf : f.InRange) (memory : MemoryImage)
    (hindex : p.functions[p.functionIndex f]? = some f) :
    Returns (fun _ => True) (fragment p memory f) := by
  refine .bind (Logged.within_returns _ ?_) fun _ => .pure
  refine (reportCompression_returns _ _).bind fun _ => inStyle_returns hf memory fun hstyle => ?_
  rw [Program.compression, hindex] at hstyle
  exact (ofCompression_classify _).1 hstyle

/-! ## Tables -/

/-- The position of a table is known exactly if its offset is an integer constant that is an
address. -/
theorem tableOffset?_isSome {segment : TableSegment} :
    (tableOffset? segment).isSome = true ↔ HasOffset segment := by
  have hword : ∀ value n, Value.asInteger? value = some n → n < 2 ^ 64 := by
    intro value n hn
    cases value with
    | i32 word =>
      cases hn
      have := word.toInt_lt
      omega
    | i64 word =>
      cases hn
      have := word.toInt_lt
      omega
    | f32 | f64 => cases hn
  constructor
  · intro h
    unfold tableOffset? at h
    split at h
    · next value hoffset =>
      cases hvalue : value.asInteger? with
      | none => simp [hvalue] at h
      | some n =>
        have hn : 0 ≤ n := by
          cases n with
          | ofNat n => exact Int.natCast_nonneg n
          | negSucc n => simp [hvalue, Int.toNat?] at h
        exact ⟨value, n, hoffset, hvalue, hn, hword value n hvalue⟩
    · simp at h
  · rintro ⟨value, n, hoffset, hvalue, hn, -⟩
    obtain ⟨k, rfl⟩ := Int.eq_ofNat_of_zero_le hn
    simp [tableOffset?, hoffset, hvalue, Int.toNat?]

/-- A table whose entries are functions is printed exactly if its position is known. -/
theorem tableText_ok_iff {segment : TableSegment}
    (hentries : ∀ id ∈ segment.entries, p.indexOf id < p.functions.length) (number : Nat) :
    (∃ text, tableText p number segment = .ok text) ↔ HasOffset segment := by
  rw [← tableOffset?_isSome]
  have hmap : ∃ texts, segment.entries.mapM (tableEntry p) = .ok texts := by
    cases hresult : segment.entries.mapM (tableEntry p) with
    | ok texts => exact ⟨texts, rfl⟩
    | error e =>
      obtain ⟨id, hid, herror⟩ := mapM_eq_error hresult
      have hindex : (p.names.get id).index < p.functions.length := hentries id hid
      simp [tableEntry, List.getElem?_eq_getElem hindex] at herror
  obtain ⟨texts, htexts⟩ := hmap
  cases hoffset : tableOffset? segment <;> simp [tableText, tableEntries, hoffset, htexts]

/-- Tables whose entries are functions are all printed exactly if all their positions are known. -/
theorem tableTexts_ok_iff {tables : List TableSegment}
    (hentries : ∀ segment ∈ tables, ∀ id ∈ segment.entries, p.indexOf id < p.functions.length)
    (number : Nat) :
    (∃ texts, tableTexts p number tables = .ok texts) ↔ ∀ segment ∈ tables, HasOffset segment := by
  induction tables generalizing number with
  | nil => simp [tableTexts]
  | cons segment rest ih =>
    obtain ⟨hsegment, hrest⟩ := List.forall_mem_cons.1 hentries
    rw [List.forall_mem_cons, ← tableText_ok_iff hsegment number, ← ih hrest (number + 1)]
    simp only [tableTexts, bind_eq_ok]
    constructor
    · rintro ⟨texts, text, htext, texts', htexts', -⟩
      exact ⟨⟨text, htext⟩, texts', htexts'⟩
    · rintro ⟨⟨text, htext⟩, texts', htexts'⟩
      exact ⟨text :: texts', text, htext, texts', htexts', rfl⟩

/-! ## The whole listing -/

/-- What follows the functions of a listing is printed exactly if the positions of all tables are
known. -/
theorem tail_ok_iff (hp : Program.ofModule? m = .ok p) (memory : MemoryImage) :
    (∃ text, tail p memory = .ok text) ↔ ∀ segment ∈ p.tables, HasOffset segment := by
  rw [← tableTexts_ok_iff (fun _ hsegment _ hid => Program.indexOf_lt_of_entry hp hsegment hid) 0]
  simp only [tail, bind_eq_ok]
  constructor
  · rintro ⟨text, texts, htexts, -⟩
    exact ⟨texts, htexts⟩
  · rintro ⟨texts, htexts⟩
    exact ⟨_, texts, htexts, rfl⟩

/-- Nothing about a function stops the listing of its program: its local indices are in range, it is
listed as an import exactly if it is one, and every other style suits it. -/
structure Listable (p : Program) (f : Function) : Prop where
  locals : ∀ body, f.body? = some body →
    ∀ i ∈ body.touched, i < f.params.length + f.locals.length
  style : Style.ofCompression (p.compression (p.functionIndex f)) = .imported ↔
    f.isImported = true
  text : ∀ memory style, (style = .imported → f.isImported = true) →
    ∃ text, (inStyle p memory f style).start.1 = .ok text

/-- Nothing about a function of an expanded program stops its listing. -/
theorem listable_of_mem (hp : Program.ofModule? m = .ok p) (hf : f ∈ p.functions) :
    Listable p f := by
  have hrange := Program.inRange_of_mem hp hf
  refine ⟨fun body hbody => Expr.below_iff.1 (hrange body hbody), ?_, fun memory style hstyle => ?_⟩
  · rw [Program.compression, Program.getElem?_functionIndex hp hf]
    exact ofCompression_classify _
  · obtain ⟨text, log, hrun, -⟩ := inStyle_returns (p := p) hrange memory hstyle [] trivial
    exact ⟨text, congrArg Prod.fst hrun⟩

/-- To report the toolchain comes to its end. -/
theorem reportBackend_returns : Returns (fun _ => True) (reportBackend p) := by
  unfold reportBackend
  split
  · exact Logged.emit_returns _
  · exact .pure

/-- A toolchain is supported exactly if it is known. -/
theorem isSupported_iff {backend : Backend} : backend.isSupported = true ↔ backend ≠ .unknown := by
  cases backend <;> simp [Backend.isSupported]

/-- What comes after the toolchain is known and the memory laid out: the functions, which return,
and the tables. -/
theorem fragments_return (hp : Program.ofModule? m = .ok p) (memory : MemoryImage)
    (gadgets : Bool) :
    Returns (fun _ => True) ((listedFunctions p gadgets).mapM (fragment p memory)) := by
  refine .mapM fun f hf => ?_
  have hf : f ∈ p.functions := (List.mem_filter.1 hf).1
  exact fragment_returns (Program.inRange_of_mem hp hf) memory
    (Program.getElem?_functionIndex hp hf)

/-- A program with a known toolchain, a memory that can be laid out and constant table offsets is
listed. -/
theorem program_returns (hp : Program.ofModule? m = .ok p) (gadgets : Bool)
    (hbackend : p.backend ≠ .unknown) {memory : MemoryImage}
    (hmemory : MemoryImage.ofSegments p.segments = .ok memory)
    (htables : ∀ segment ∈ p.tables, HasOffset segment) :
    Returns (fun _ => True) (program p gadgets) := by
  refine reportBackend_returns.bind fun _ => ?_
  simp only [isSupported_iff.2 hbackend, Bool.not_true, Bool.false_eq_true, if_false]
  refine (Logged.emit_returns _).bind fun _ => ?_
  refine (Logged.ofExcept_returns ⟨memory, mapError_eq_ok.2 hmemory⟩).bind fun memory => ?_
  refine (fragments_return hp memory gadgets).bind fun fragments => ?_
  obtain ⟨text, htext⟩ := (tail_ok_iff hp memory).2 htables
  refine (Logged.ofExcept_returns ⟨text, mapError_eq_ok.2 htext⟩).bind fun _ => ?_
  exact (Logged.emit_returns _).bind fun _ => .pure

/-- A listing fails for a toolchain that is not known, a memory that cannot be laid out, or a table
whose position is not known. -/
theorem program_fails (hp : Program.ofModule? m = .ok p) (gadgets : Bool)
    (h : p.backend = .unknown ∨ (∃ c, MemoryImage.ofSegments p.segments = .error c) ∨
      ∃ segment ∈ p.tables, ¬HasOffset segment) : Fails (program p gadgets) := by
  refine .bind_right reportBackend_returns fun _ => ?_
  by_cases hbackend : p.backend = .unknown
  · rw [hbackend]
    exact .bind_left fun log => ⟨_, log, rfl⟩
  simp only [isSupported_iff.2 hbackend, Bool.not_true, Bool.false_eq_true, if_false]
  refine .bind_right (Logged.emit_returns _) fun _ => ?_
  cases hmemory : MemoryImage.ofSegments p.segments with
  | error c => exact .bind_left (Logged.ofExcept_fails ⟨_, rfl⟩)
  | ok memory =>
    refine .bind_right (Logged.ofExcept_returns ⟨memory, rfl⟩) fun memory => ?_
    refine .bind_right (fragments_return hp memory gadgets) fun fragments => ?_
    -- Only the tables are left to fail.
    obtain ⟨segment, hsegment, hoffset⟩ : ∃ segment ∈ p.tables, ¬HasOffset segment := by
      simpa [hbackend, hmemory] using h
    cases htail : tail p memory with
    | error c => exact .bind_left (Logged.ofExcept_fails ⟨_, rfl⟩)
    | ok text => exact absurd ((tail_ok_iff hp memory).1 ⟨text, htail⟩ segment hsegment) hoffset

/-- The listing of an expanded program fails if the toolchain is not known, if the memory cannot be
laid out or if the offset of a table is not an integer constant, and for no other reason. None of
its functions stops it. -/
theorem program_fails_iff (hp : Program.ofModule? m = .ok p) (gadgets : Bool) :
    ((∃ e, (program p gadgets).start.1 = .error e) ↔
      p.backend = .unknown ∨ (∃ c, MemoryImage.ofSegments p.segments = .error c) ∨
        ∃ segment ∈ p.tables, ¬HasOffset segment) ∧
    ∀ f ∈ p.functions, Listable p f := by
  refine ⟨⟨?_, fun h => ?_⟩, fun f hf => listable_of_mem hp hf⟩
  · rintro ⟨e, he⟩
    by_contra hnone
    simp only [not_or, not_exists, not_and, not_not] at hnone
    obtain ⟨hbackend, hmemory, htables⟩ := hnone
    cases hsegments : MemoryImage.ofSegments p.segments with
    | error c => exact hmemory c hsegments
    | ok memory =>
      obtain ⟨text, log, hrun, -⟩ :=
        program_returns hp gadgets hbackend hsegments htables [] trivial
      cases he.symm.trans (congrArg Prod.fst hrun)
  · obtain ⟨e, log, hrun⟩ := program_fails hp gadgets h []
    exact ⟨e, congrArg Prod.fst hrun⟩

/-- A module whose function is kept in a table at a negative position. -/
def misplaced : Module where
  types := [⟨[.i32], [.i32]⟩]
  functions := [⟨0, [.i32], [0x20, 0x00, 0x21, 0x01, 0x20, 0x01, 0x0b]⟩]
  globals := [⟨.i32, true, .value (.i32 65536)⟩]
  elements := [⟨.value (.i32 (-1)), [0]⟩]

/-- The listing of a module whose table has a negative position fails, though its function is
listable. -/
theorem program_fails_iff_misplaced :
    ∃ p, Program.ofModule? misplaced = .ok p ∧ p.backend = .llvm32 0 ∧
      (∃ e, (program p false).start.1 = .error e) ∧ ∀ f ∈ p.functions, Listable p f := by
  let scope : Scope := ⟨[⟨[.i32], [.i32]⟩], [⟨[.i32], [.i32]⟩], [⟨0⟩], [.i32]⟩
  let copying : Expr :=
    .block none [.localSet 1 (.localGet 0 .i32) false .void, .localGet 1 .i32] .i32
  have hstages : Program.Stages misplaced scope []
      [⟨⟨0⟩, [.i32], .i32, .defined [.i32] copying, none⟩]
      [⟨.const (.i32 (-1)), [⟨0⟩]⟩] := by
    refine ⟨rfl, rfl, rfl, rfl, rfl, rfl, ?_⟩
    exact Program.tableSegments_run [.i32] (Program.ofModule_raws_nodup misplaced)
      (by rw [Names.ofModule_length]; decide)
  obtain ⟨names, hnames, -⟩ := hstages.bound
  have hp := Program.ofModule?_eq_ok.2 ⟨scope, _, _, _, names, hstages, hnames, rfl⟩
  obtain ⟨hfails, hlistable⟩ := program_fails_iff hp false
  refine ⟨_, hp, rfl, hfails.2 (.inr (.inr ⟨_, .head _, ?_⟩)), hlistable⟩
  rw [← tableOffset?_isSome]
  decide

end Listing

end WasmLift
