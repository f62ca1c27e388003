import WasmLift.Listing.Program
import WasmLift.Proofs.Outcomes

/-!
# Results and reports

What a listing reports on its way has no influence on its result: started from any log, the
computations of a listing come to one and the same result. The result of a whole listing is put
together from those of its parts (`Listing.program_comesTo`).
-/

namespace WasmLift

section
variable {σ ε α β : Type} {P : σ → Prop}

/-- From every state with the property, the computation comes to the result and to a state with the
property. -/
def ComesTo (P : σ → Prop) (x : ExceptT ε (StateM σ) α) (result : Except ε α) : Prop :=
  ∀ s, P s → (x s).1 = result ∧ P (x s).2

/-- A value comes to itself. -/
theorem ComesTo.pure {a : α} : ComesTo P (pure a : ExceptT ε (StateM σ) α) (.ok a) :=
  fun _ hs => ⟨rfl, hs⟩

/-- An error comes to itself. -/
theorem ComesTo.throw {e : ε} : ComesTo P (throw e : ExceptT ε (StateM σ) α) (.error e) :=
  fun _ hs => ⟨rfl, hs⟩

/-- A change of the log comes to nothing. -/
theorem ComesTo.modify {f : σ → σ} (hf : ∀ s, P s → P (f s)) :
    ComesTo P (modify f : ExceptT ε (StateM σ) PUnit) (.ok ⟨⟩) :=
  fun s hs => ⟨rfl, hf s hs⟩

/-- A step that succeeds hands over to the next. -/
theorem ComesTo.andThen {x : ExceptT ε (StateM σ) α} {f : α → ExceptT ε (StateM σ) β} {a : α}
    {r : Except ε β} (hx : ComesTo P x (.ok a)) (hf : ComesTo P (f a) r) :
    ComesTo P (x >>= f) r := by
  intro s hs
  obtain ⟨hresult, hs'⟩ := hx s hs
  rw [bind_of_ok (Prod.ext hresult rfl)]
  exact hf _ hs'

/-- Nothing happens after a step that fails. -/
theorem ComesTo.stop {x : ExceptT ε (StateM σ) α} {f : α → ExceptT ε (StateM σ) β} {e : ε}
    (hx : ComesTo P x (.error e)) : ComesTo P (x >>= f) (.error e) := by
  intro s hs
  obtain ⟨hresult, hs'⟩ := hx s hs
  rw [bind_of_error (Prod.ext hresult rfl)]
  exact ⟨rfl, hs'⟩

/-- Two computations one after the other come to what they do one by one. -/
theorem ComesTo.bind {x : ExceptT ε (StateM σ) α} {f : α → ExceptT ε (StateM σ) β}
    {r : Except ε α} {g : α → Except ε β} (hx : ComesTo P x r) (hf : ∀ a, ComesTo P (f a) (g a)) :
    ComesTo P (x >>= f) (r >>= g) := by
  cases r with
  | error e => exact hx.stop
  | ok a => exact hx.andThen (hf a)

/-- A step that looks at the state comes to a result if it does for whatever it sees. -/
theorem ComesTo.get {f : σ → ExceptT ε (StateM σ) β} {r : Except ε β}
    (hf : ∀ s, P s → ComesTo P (f s) r) : ComesTo P ((get : ExceptT ε (StateM σ) σ) >>= f) r :=
  fun s hs => hf s hs s hs

/-- A computation along a list comes to what it does item by item. -/
theorem ComesTo.mapM {f : α → ExceptT ε (StateM σ) β} {g : α → Except ε β} {xs : List α}
    (hf : ∀ x ∈ xs, ComesTo P (f x) (g x)) : ComesTo P (xs.mapM f) (xs.mapM g) := by
  induction xs with
  | nil => exact .pure
  | cons x xs ih =>
    rw [List.mapM_cons, List.mapM_cons]
    refine (hf x (.head _)).bind fun b => ?_
    exact (ih fun y hy => hf y (.tail _ hy)).bind fun bs => .pure

/-- A step that only changes an error. -/
theorem ComesTo.mapError {x : ExceptT ε (StateM σ) α} {r : Except ε α} (change : ε → ε)
    (hx : ComesTo P x r) :
    ComesTo P (tryCatch x fun e => MonadExcept.throw (change e)) (r.mapError change) := by
  intro s hs
  have hresult := hx s hs
  simp only [tryCatch, tryCatchThe, MonadExceptOf.tryCatch, ExceptT.tryCatch, ExceptT.mk,
    Bind.bind, StateT.bind]
  generalize x s = outcome at hresult ⊢
  obtain ⟨e | a, s'⟩ := outcome
  · obtain ⟨rfl, hs'⟩ := hresult
    exact ⟨rfl, hs'⟩
  · obtain ⟨rfl, hs'⟩ := hresult
    exact ⟨rfl, hs'⟩

end

/-! ## The parts of a listing -/

namespace Logged

variable {α β : Type}

/-- The result of the computation does not depend on what was reported before. -/
def Settled (x : Logged α) : Prop :=
  ComesTo (fun _ => True) x x.start.1

/-- A report comes to nothing. -/
theorem emit_comesTo (e : Event) : ComesTo (fun _ => True) (emit e) (.ok ()) :=
  .modify fun _ _ => trivial

/-- An outcome comes to itself. -/
theorem ofExcept_comesTo (x : Except Error α) : ComesTo (fun _ => True) (ofExcept x) x := by
  cases x with
  | ok => exact .pure
  | error => exact .throw

/-- A computation that yields a result is settled. -/
theorem settled_of_comesTo {x : Logged α} {r : Except Error α}
    (hx : ComesTo (fun _ => True) x r) : x.Settled := by
  have hstart : x.start.1 = r := (hx [] trivial).1
  rw [Settled, hstart]
  exact hx

end Logged

namespace Listing

open Logged

variable {p : Program} {memory : MemoryImage} {f : Function}

/-- Reports come to nothing. -/
theorem emitAll_comesTo (events : List Event) :
    ComesTo (fun _ => True) (forIn events PUnit.unit fun event _ => do
      emit event
      return ForInStep.yield PUnit.unit : Logged PUnit) (.ok ⟨⟩) := by
  induction events with
  | nil => exact .pure
  | cons event rest ih =>
    rw [List.forIn_cons]
    refine ComesTo.andThen (a := ForInStep.yield PUnit.unit) ?_ ih
    exact (emit_comesTo event).andThen .pure

/-- The listing of a function after the walk does not depend on the log. -/
theorem framedIn_settled (s : Framed.Surroundings) (frameSize : Int) :
    (framedIn s frameSize).Settled := by
  unfold framedIn
  rcases Framed.statements s with ⟨cause | statements, st⟩
  · exact settled_of_comesTo ((emitAll_comesTo st.events).andThen .throw)
  · exact settled_of_comesTo ((emitAll_comesTo st.events).andThen ((emit_comesTo _).andThen .pure))

/-- The listing of a function in any style does not depend on the log. -/
theorem inStyle_settled (style : Style) : (inStyle p memory f style).Settled := by
  cases style with
  | imported => exact settled_of_comesTo (ofExcept_comesTo _)
  | framed frameSize => exact framedIn_settled _ frameSize
  | direct level => exact settled_of_comesTo (ofExcept_comesTo _)

/-- The report of what is kept comes to nothing. -/
theorem reportKept_comesTo (compression : Compression) :
    ComesTo (fun _ => True) (reportKept compression) (.ok ()) := by
  unfold reportKept
  split
  · exact emit_comesTo _
  · exact .pure

/-- The report of the backend comes to nothing. -/
theorem reportBackend_comesTo : ComesTo (fun _ => True) (reportBackend p) (.ok ()) := by
  unfold reportBackend
  split
  · exact emit_comesTo _
  · exact .pure

/-- The text of a function, or what stops it. -/
def functionResult (p : Program) (memory : MemoryImage) (f : Function) : Except Error String :=
  (inStyle p memory f (.ofCompression (p.compression (p.functionIndex f)))).start.1

/-- A function is listed as its result, whatever the log. -/
theorem function_comesTo :
    ComesTo (fun _ => True) (function p memory f) (functionResult p memory f) := by
  refine ComesTo.andThen ((emit_comesTo _).andThen (reportKept_comesTo _)) ?_
  exact inStyle_settled _

/-- A fragment is the result of its function behind a line break, whatever the log. -/
theorem fragment_comesTo :
    ComesTo (fun _ => True) (fragment p memory f)
      (do
        let text ← (functionResult p memory f).mapError
          (·.within (.decompilingFunction (p.functionIndex f) (p.functionName f)))
        return "\n" ++ text) :=
  (function_comesTo.mapError _).bind fun _ => .pure

/-- A fragment does not depend on the log. -/
theorem fragment_settled : (fragment p memory f).Settled :=
  settled_of_comesTo fragment_comesTo

/-- The result of a listing, put together from the results of its parts. -/
def programResult (p : Program) (gadgets : Bool) : Except Error String :=
  if p.backend.isSupported then do
    let memory ← (MemoryImage.ofSegments p.segments).mapError Error.ofCause
    let fragments ← (listedFunctions p gadgets).mapM fun f => (fragment p memory f).start.1
    let rest ← (tail p memory).mapError Error.ofCause
    return String.join fragments ++ rest
  else .error (.ofCause (.unsupportedBackend p.backend.name))

/-- From any log, a listing comes to the result that its parts make up. -/
theorem program_comesTo (gadgets : Bool) :
    ComesTo (fun _ => True) (program p gadgets) (programResult p gadgets) := by
  refine reportBackend_comesTo.andThen ?_
  unfold programResult
  cases hsupported : p.backend.isSupported
  · simp only [hsupported, Bool.not_false, if_true, Bool.false_eq_true, if_false]
    exact .stop .throw
  · simp only [hsupported, Bool.not_true, Bool.false_eq_true, if_false, if_true]
    refine (emit_comesTo _).andThen ?_
    refine (ofExcept_comesTo _).bind fun memory => ?_
    refine (ComesTo.mapM fun f _ => fragment_settled).bind fun fragments => ?_
    refine (ofExcept_comesTo _).bind fun rest => ?_
    exact (emit_comesTo _).andThen .pure

/-- A whole listing starts out with its result. -/
theorem program_start (gadgets : Bool) :
    (program p gadgets).start.1 = programResult p gadgets :=
  (program_comesTo gadgets [] trivial).1

end Listing

end WasmLift
