import LexicalEnv.Proofs.Call

/-!
# Calls that are refused

The parameters of a call are judged first, then its arguments, then their
number. Judging changes nothing, and a call without a trace that is not refused
makes its frame (`extend_outcome`).
-/

namespace LexicalEnv

/-- How a call ends: without a fault, or with one of the given title. -/
inductive Heap.Verdict (h : Heap) (binds exprs : Value) : Option String → Prop
  | unreadable (hu : h.Unreadable binds) : h.Verdict binds exprs (some "TypeError")
  | malformed (hm : h.Malformed binds) : h.Verdict binds exprs (some "ParameterListError")
  | noSequence {s : Signature} {fault : Fault} (hd : h.Declares binds s)
    (he : h.sequenceOf exprs = .error fault) : h.Verdict binds exprs (some "TypeError")
  | unfit {s : Signature} {args : List Value} (hd : h.Declares binds s)
    (he : h.sequenceOf exprs = .ok args) (ha : ¬ s.Accepts args.length) :
    h.Verdict binds exprs (some "ArityError")
  | fit {s : Signature} {args : List Value} (hd : h.Declares binds s)
    (he : h.sequenceOf exprs = .ok args) (ha : s.Accepts args.length) : h.Verdict binds exprs none

def Action.title? {α : Type} (x : Action α) (w : World) : Option String :=
  match x w with
  | .ok _ _ => none
  | .error fault _ => some fault.title

def World.Refuses (w : World) (title : String) (x : Action Value) : Prop :=
  ∃ fault, x w = .error fault w ∧ fault.title = title

variable {w w' : World} {binds exprs : Value} {args : List Value} {s : Signature}

theorem Heap.exists_verdict {h : Heap} (hs : h.CarriesSymbols binds) (exprs : Value) :
    ∃ v, h.Verdict binds exprs v := by
  rcases declared hs with hu | hm | ⟨s, hd⟩
  · exact ⟨_, .unreadable hu⟩
  · exact ⟨_, .malformed hm⟩
  · cases he : h.sequenceOf exprs with
    | error fault => exact ⟨_, .noSequence hd he⟩
    | ok args =>
      by_cases ha : s.Accepts args.length
      · exact ⟨_, .fit hd he ha⟩
      · exact ⟨_, .unfit hd he ha⟩

namespace Frame

theorem extend_of_unfit (outer name : Value) (hd : w.heap.Declares binds s)
    (he : w.heap.sequenceOf exprs = .ok args) (ha : ¬ s.Accepts args.length) :
    extend outer binds exprs false name w =
      .error (w.heap.arityFault name (.str s.expected) (.int args.length)) w := by
  obtain ⟨list, hl, hdescribes⟩ := hd.paramList
  rw [extend_of_described outer name false hl hdescribes he, if_neg ha]

theorem extend_of_fit (outer name : Value) (hd : w.heap.Declares binds s)
    (he : w.heap.sequenceOf exprs = .ok args) (ha : s.Accepts args.length) :
    ∃ new w', extend outer binds exprs false name w = .ok new w' := by
  obtain ⟨list, hl, hdescribes⟩ := hd.paramList
  rw [extend_of_described outer name false hl hdescribes he, if_pos ha]
  obtain ⟨new, w', hrun, -⟩ := (fill_ends w outer hdescribes ha false).exists_ok (by simp)
  exact ⟨new, w', hrun⟩

theorem extend_title (outer name : Value) {v : Option String} (hv : w.heap.Verdict binds exprs v) :
    (extend outer binds exprs false name).title? w = v := by
  cases hv with
  | unreadable hu =>
    obtain ⟨fault, hl, htitle⟩ := hu.paramList
    rw [Action.title?, extend_of_binds outer exprs name false hl]
    exact congrArg some htitle
  | malformed hm =>
    obtain ⟨fault, hl, htitle⟩ := hm.paramList
    rw [Action.title?, extend_of_binds outer exprs name false hl]
    exact congrArg some htitle
  | noSequence hd he =>
    obtain ⟨list, hl, -⟩ := hd.paramList
    rw [Action.title?, extend_of_args outer name false hl he]
    exact congrArg some (Heap.sequenceOf_error he)
  | unfit hd he ha =>
    rw [Action.title?, extend_of_unfit outer name hd he ha]
    rfl
  | fit hd he ha =>
    obtain ⟨new, w', hrun⟩ := extend_of_fit outer name hd he ha
    rw [Action.title?, hrun]

theorem extend_error (hs : w.heap.CarriesSymbols binds) {outer name : Value} {fault : Fault}
    (hf : extend outer binds exprs false name w = .error fault w') : w' = w := by
  cases hl : w.heap.paramList binds with
  | error cause =>
    rw [extend_of_binds outer exprs name false hl] at hf
    exact (EStateM.Result.error.inj hf).2.symm
  | ok list =>
    cases he : w.heap.sequenceOf exprs with
    | error cause =>
      rw [extend_of_args outer name false hl he] at hf
      exact (EStateM.Result.error.inj hf).2.symm
    | ok args =>
      obtain ⟨s, hd, -⟩ := Heap.declares_of_paramList hs hl
      by_cases ha : s.Accepts args.length
      · obtain ⟨new, w'', hrun⟩ := extend_of_fit outer name hd he ha
        rw [hrun] at hf
        cases hf
      · rw [extend_of_unfit outer name hd he ha] at hf
        exact (EStateM.Result.error.inj hf).2.symm

/-- A call without a trace, in any world and with any values for its frame, its parameters, its
arguments and its name, has a fault of a title or none exactly when that is the verdict. A fault of
the parameters comes before one of the arguments, and that before their number, for which the fault
carries the name of the call, how many arguments are expected and how many there are. A call that
fails changes nothing at all. -/
theorem extend_outcome (hs : w.heap.CarriesSymbols binds) (outer exprs name : Value) :
    (∀ v, (extend outer binds exprs false name).title? w = v ↔ w.heap.Verdict binds exprs v) ∧
      (∀ fault, w.heap.paramList binds = .error fault →
        extend outer binds exprs false name w = .error fault w) ∧
      (∀ list fault, w.heap.paramList binds = .ok list → w.heap.sequenceOf exprs = .error fault →
        extend outer binds exprs false name w = .error fault w) ∧
      (∀ s args, w.heap.Declares binds s → w.heap.sequenceOf exprs = .ok args →
        ¬ s.Accepts args.length → extend outer binds exprs false name w =
          .error (w.heap.arityFault name (.str s.expected) (.int args.length)) w) ∧
      ∀ fault w', extend outer binds exprs false name w = .error fault w' → w' = w := by
  refine ⟨fun v => ⟨?_, extend_title outer name⟩, fun _ => extend_of_binds outer exprs name false,
    fun _ _ => extend_of_args outer name false, fun _ _ => extend_of_unfit outer name,
    fun _ _ => extend_error hs⟩
  rintro rfl
  obtain ⟨v, hv⟩ := w.heap.exists_verdict hs exprs
  exact extend_title outer name hv ▸ hv

theorem extend_outcome_listedNames : World.listedNames.heap.CarriesSymbols (.ref 8) ∧
    (extend (.ref 7) (.ref 8) (.ref 3) false (.str "f")).title? World.listedNames =
      some "ArityError" ∧
    extend (.ref 7) (.ref 8) (.ref 3) false (.str "f") World.listedNames =
      .error (World.listedNames.heap.arityFault (.str "f") (.str "at least 1") (.int 0))
        World.listedNames := by
  have hs : World.listedNames.heap.CarriesSymbols (.ref 8) := by decide
  have hd := World.listedNames_declares
  have he : World.listedNames.heap.sequenceOf (.ref 3) = .ok [] := rfl
  obtain ⟨htitle, -, -, hunfit, -⟩ := extend_outcome hs (.ref 7) (.ref 3) (.str "f")
  exact ⟨hs, (htitle _).mpr (.unfit hd he (by decide)), hunfit _ _ hd he (by decide)⟩

end Frame

end LexicalEnv
