import WasmLift.Listing.Session
import WasmLift.Proofs.Listing.Reports

/-!
# What a session remembers is true

What a session remembers about a program are its toolchain and the levels of its functions, and it
stays so whatever is asked and however a request ends (`Statistics.Sound`). So the answers do not
depend on what was asked before: each is the one that a session of its own would give
(`Session.answers_alone`).
-/

namespace WasmLift

/-- What is remembered of a program is true of it. -/
structure Statistics.Sound (p : Program) (known : Statistics) : Prop where
  backend : ∀ backend, known.backend = some backend → backend = p.backend
  compressions : ∀ index compression, known.compressions.lookup index = some compression →
    compression = p.compression index

/-- What the session remembers of a program is true of it. -/
def Session.Sound (p : Program) (s : Session) : Prop :=
  s.statistics.Sound p

namespace Inquiry

open Session Logged

variable {α : Type} {p : Program} {memory : MemoryImage} {f : Function}

theorem logged_comesTo {x : Logged α} {r : Except Error α}
    (hx : ComesTo (fun _ => True) x r) : ComesTo (Sound p) (logged x) r := by
  refine .get fun s hs => ?_
  have hrun : x.run.run s.events = (r, (x s.events).2) := Prod.ext (hx s.events trivial).1 rfl
  rw [hrun]
  refine ComesTo.andThen (a := ⟨⟩) (fun _ _ => ⟨rfl, hs⟩) ?_
  cases r with
  | ok a => exact .pure
  | error e => exact .throw

theorem remember_comesTo {change : Statistics → Statistics}
    (hchange : ∀ known : Statistics, known.Sound p → (change known).Sound p) :
    ComesTo (Sound p) (remember change) (.ok ()) :=
  .modify fun s hs => hchange s.statistics hs

/-- The toolchain is the detected one, be it remembered or worked out. -/
theorem backend_comesTo : ComesTo (Sound p) (backend p) (.ok p.backend) := by
  refine .get fun s hs => ?_
  split
  · next backend hknown =>
    rw [hs.backend backend hknown]
    exact .pure
  · refine (logged_comesTo Listing.reportBackend_comesTo).andThen ?_
    refine ComesTo.andThen (remember_comesTo ?_) .pure
    intro known hknown
    exact ⟨fun backend hbackend => (Option.some.inj hbackend).symm, hknown.compressions⟩

/-- The level of a function is what the classification says, be it remembered or worked out. -/
theorem compression_comesTo (index : Nat) :
    ComesTo (Sound p) (compression p index) (.ok (p.compression index)) := by
  refine .get fun s hs => ?_
  split
  · next compression hknown =>
    rw [hs.compressions index compression hknown]
    exact .pure
  · refine backend_comesTo.andThen ?_
    show ComesTo (Sound p) (do
      logged (emit (.classified index (p.compression index)))
      remember fun known =>
        { known with compressions := (index, p.compression index) :: known.compressions }
      return p.compression index) (.ok (p.compression index))
    refine (logged_comesTo (emit_comesTo _)).andThen ?_
    refine ComesTo.andThen (remember_comesTo ?_) .pure
    intro known hknown
    refine ⟨hknown.backend, fun i c hc => ?_⟩
    rw [List.lookup_cons] at hc
    split at hc
    · next hi =>
      cases hc
      rw [eq_of_beq hi]
    · exact hknown.compressions i c hc

theorem inStyle_comesTo (style : Listing.Style) :
    ComesTo (Sound p) (inStyle p memory f style)
      (Listing.inStyle p memory f style).start.1 := by
  cases style with
  | framed frameSize =>
    exact backend_comesTo.andThen (logged_comesTo (Listing.framedIn_settled _ _))
  | imported =>
    exact logged_comesTo (x := Listing.inStyle p memory f .imported) (Listing.inStyle_settled _)
  | direct level =>
    exact logged_comesTo (x := Listing.inStyle p memory f (.direct level))
      (Listing.inStyle_settled _)

theorem fragment_comesTo :
    ComesTo (Sound p) (fragment p memory f) (Listing.fragment p memory f).start.1 := by
  rw [show (Listing.fragment p memory f).start.1 = _ from (Listing.fragment_comesTo [] trivial).1]
  refine ComesTo.bind (ComesTo.mapError _ ?_) fun _ => .pure
  refine (compression_comesTo _).andThen ?_
  exact (logged_comesTo (Listing.reportKept_comesTo _)).andThen (inStyle_comesTo _)

/-- The listing in a session is the one outside. -/
theorem program_comesTo (gadgets : Bool) :
    ComesTo (Sound p) (program p gadgets) (Listing.program p gadgets).start.1 := by
  rw [Listing.program_start, Listing.programResult]
  refine backend_comesTo.andThen ?_
  cases hsupported : p.backend.isSupported
  · simp only [Bool.not_false, if_true, Bool.false_eq_true, if_false]
    exact .stop .throw
  · simp only [Bool.not_true, Bool.false_eq_true, if_false, if_true]
    refine (logged_comesTo (emit_comesTo _)).andThen ?_
    refine (logged_comesTo (ofExcept_comesTo _)).bind fun memory => ?_
    refine (ComesTo.mapM fun f _ => fragment_comesTo).bind fun fragments => ?_
    refine (logged_comesTo (ofExcept_comesTo _)).bind fun rest => ?_
    exact (logged_comesTo (emit_comesTo _)).andThen .pure

end Inquiry

namespace Session

variable {p : Program}

/-- The answer that is right, whatever was asked before. -/
def rightAnswer (p : Program) : Request → Except Error Answer
  | .backend => .ok (.backend (Backend.detect p.globals))
  | .compression index =>
    .ok (.compression (match p.functions[index]? with
      | some f => Compression.classify (Backend.detect p.globals).stackPointer? f
      | none => .maximum))
  | .listing gadgets => (Listing.program p gadgets).start.1.map .listing

theorem answer_comesTo (request : Request) :
    ComesTo (Sound p) (answer p request) (rightAnswer p request) := by
  cases request with
  | backend => exact Inquiry.backend_comesTo.andThen .pure
  | compression index => exact (Inquiry.compression_comesTo index).andThen .pure
  | listing gadgets =>
    have hmap : rightAnswer p (.listing gadgets) =
        (Listing.program p gadgets).start.1 >>= fun text => .ok (.listing text) := by
      show Except.map _ _ = _
      cases (Listing.program p gadgets).start.1 <;> rfl
    rw [hmap]
    exact (Inquiry.program_comesTo gadgets).bind fun text => .pure

theorem answers_sound {s : Session} (hs : s.Sound p) (requests : List Request) :
    ((answers p requests).run s).1 = requests.map (rightAnswer p) := by
  induction requests generalizing s with
  | nil => rfl
  | cons request rest ih =>
    obtain ⟨hanswer, hs'⟩ := answer_comesTo request s hs
    have hrest : ((answers p (request :: rest)).run s).1 =
        (answer p request s).1 :: ((answers p rest).run (answer p request s).2).1 := by
      rw [answers, List.mapM_cons]
      rfl
    rw [hrest, hanswer, ih hs', List.map_cons]

theorem sound_empty : Sound p {} :=
  ⟨nofun, nofun⟩

/-- Whatever a program is asked in a session, every answer is the one that a session of its own
would give: the toolchain is the one its globals show, the level of a function is what the
classification says, and the listing is what it would be if nothing was remembered. -/
theorem answers_alone (p : Program) (requests : List Request) :
    ((answers p requests).run {}).1 = requests.map (answerAlone p) ∧
      answerAlone p = rightAnswer p := by
  have halone : answerAlone p = rightAnswer p := by
    funext request
    exact (answer_comesTo request {} sound_empty).1
  rw [halone]
  exact ⟨answers_sound sound_empty requests, rfl⟩

end Session

end WasmLift
