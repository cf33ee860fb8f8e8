import LexicalEnv.Proofs.Write

/-!
# All or nothing

Setting a name writes to the frame's map before the value is traced. So without a
trace a call sets the name or changes nothing. A traced call can fail with the
name set, namely if the value has no text and was not bound to the name before
(`Reachable.set_atomic_iff`).
-/

namespace LexicalEnv

open LexicalEnv.Action (Ends)

variable {w w' : World} {f parent map key value : Value} {entries : Entries} {name : String}
  {fault : Fault}

theorem Heap.insert_of_find? {h h' : Heap} (hf : h'.find? entries (.sym name) = some value)
    (birth : Birth) : h.insert entries (.symbol name birth) value = entries := by
  induction entries with
  | nil => cases hf
  | cons e rest ih =>
    obtain ⟨k, v⟩ := e
    by_cases hk : k.symbol? = some name
    · obtain rfl : v = value := by simpa [find?, hk] using hf
      simp [insert, hk]
    · have hrest : h'.find? rest (.sym name) = some value := by simpa [find?, hk] using hf
      simp [insert, hk, ih hrest]

theorem Frame.bound?_of_own? {h h' : Heap} (ho : own? h' f = own? h f) (name : String) :
    bound? h' f name = bound? h f name := by
  simp only [bound?, ho, Value.sym, h'.find?_symbol h _ name none none]

namespace World

def Untouched (w w' : World) : Prop := ∀ f ∈ w.frames, Frame.own? w'.heap f = Frame.own? w.heap f

theorem Grows.untouched (hw : w.Sound) (hg : w.Grows w') : w.Untouched w' := by
  intro f hf
  obtain ⟨_, _, _, hi, -⟩ := hw.isFrame hf
  rw [(hi.kept hg.kept).own?, hi.own?]

theorem Written.untouched_iff (hw : w.Sound) (hf : f ∈ w.frames)
    (hi : w.heap.IsFrame f parent map entries) (h : w.Written w' map entries name value) :
    w.Untouched w' ↔ Frame.bound? w.heap f name = some value := by
  constructor
  · intro hu
    rw [← Frame.bound?_of_own? (hu f hf), h.bound?_self hi, if_pos rfl]
  · intro hb g hg
    by_cases hgf : g = f
    · subst hgf
      rw [hi.bound?] at hb
      rw [(h.isFrame_self hi).own?, hi.own?, Value.sym, Heap.insert_of_find? hb]
    · obtain ⟨_, _, _, hig, -⟩ := hw.isFrame hg
      rw [(h.isFrame hw hf hi hg hig hgf).own?, hig.own?]

/-- The action answers the value, bound to the key's name in the frame's own map, or it fails and
leaves all frames untouched. -/
def Atomic (w : World) (frame key value : Value) (x : Action Value) : Prop :=
  Ends x w
    (fun a w' => a = value ∧
      ∃ name, w.heap.nameOf key = .ok name ∧ Frame.bound? w'.heap frame name = some value)
    fun _ w' => w.Untouched w'

def Untraceable (w : World) (frame key value : Value) : Prop :=
  ∃ fault, Printing.text ((Frame.set frame key value false).after w).heap value = .error fault

theorem untraceable_iff {a : Value} (hr : Frame.set f key value false w = .ok a w') :
    w.Untraceable f key value ↔ ∃ fault, Printing.text w'.heap value = .error fault := by
  rw [Untraceable, Action.after, hr]

/-- How setting a name ends. The key is judged first, then the value is bound, then it is traced. -/
structure SetEnds (w : World) (frame key value : Value) : Prop where
  refused : ∀ fault, w.heap.nameOf key = .error fault → ∀ debug,
    Frame.set frame key value debug w = .error fault w
  bound : ∀ name, w.heap.nameOf key = .ok name → ∃ w',
    Frame.set frame key value false w = .ok value w' ∧
      Frame.bound? w'.heap frame name = some value ∧
      (w.Untouched w' ↔ Frame.bound? w.heap frame name = some value) ∧
      (∀ text, Printing.text w'.heap value = .ok text →
        Frame.set frame key value true w = .ok value
          { w' with printed := w'.printed ++ ("Set " ++ name ++ " = " ++ text) ++ "\n" }) ∧
      ∀ fault, Printing.text w'.heap value = .error fault →
        Frame.set frame key value true w = .error fault w'

theorem Sound.setEnds (hw : w.Sound) (hf : f ∈ w.frames) (key value : Value) :
    w.SetEnds f key value := by
  obtain ⟨parent, map, entries, hi, -⟩ := hw.isFrame hf
  refine ⟨fun fault hk debug => ?_, fun name hk => ?_⟩
  · have hread : Action.read (·.nameOf key) w = .error fault w := Action.run_read_error hk
    simp only [Frame.set, Action.run_bind, hread]
  · obtain ⟨w', hwritten, hrun⟩ := hi.set_eq hk value
    have hbound := hwritten.bound?_self hi name
    rw [if_pos rfl] at hbound
    refine ⟨w', hrun false, hbound, hwritten.untouched_iff hw hf hi, fun text ht => ?_,
      fun fault ht => ?_⟩
    · have hread : Action.read (Printing.text · value) w' = .ok text w' := Action.run_read ht
      simp only [hrun true, if_true, Action.run_bind, hread]
      rfl
    · have hread : Action.read (Printing.text · value) w' = .error fault w' :=
        Action.run_read_error ht
      simp only [hrun true, if_true, Action.run_bind, hread]

theorem SetEnds.atomic_iff (hs : w.SetEnds f key value) (hk : w.heap.nameOf key = .ok name)
    (debug : Bool) : w.Atomic f key value (Frame.set f key value debug) ↔
      ¬ (debug = true ∧ w.Untraceable f key value ∧ Frame.bound? w.heap f name ≠ some value) := by
  obtain ⟨w', hrun, hbound, huntouched, htext, hfault⟩ := hs.bound name hk
  have hok : ∃ name, w.heap.nameOf key = .ok name ∧ Frame.bound? w'.heap f name = some value :=
    ⟨name, hk, hbound⟩
  rw [untraceable_iff hrun]
  cases debug with
  | false => simp [Atomic, Ends, hrun, hok]
  | true =>
    cases ht : Printing.text w'.heap value with
    | ok text => simp [Atomic, Ends, htext text ht, hok]
    | error fault => simp [Atomic, Ends, hfault fault ht, huntouched]

/-- Setting a name in a frame of a reachable world fails and changes nothing if the key means no
name. Else the value is bound, and a traced call takes the text of the value then. So the call is
all or nothing but for one case: it is traced, the value has no text once it is bound, and the name
was not bound to it before. Then the call fails with the name set. -/
theorem Reachable.set_atomic_iff (hw : w.Reachable) (hf : f ∈ w.frames) (key value : Value) :
    w.SetEnds f key value ∧ ∀ debug, w.Atomic f key value (Frame.set f key value debug) ↔
      ∀ name, w.heap.nameOf key = .ok name →
        ¬ (debug = true ∧ w.Untraceable f key value ∧
          Frame.bound? w.heap f name ≠ some value) := by
  have hends := hw.sound.setEnds hf key value
  refine ⟨hends, fun debug => ?_⟩
  cases hk : w.heap.nameOf key with
  | error fault =>
    have hatomic : w.Atomic f key value (Frame.set f key value debug) :=
      .of_error (hends.refused fault hk debug) fun _ _ => rfl
    simp [hatomic]
  | ok name => simp [hends.atomic_iff hk debug]

/-- Two frames, and a string that holds a number. -/
def unprintable : World :=
  (Call.data (Tagged.table (.int 5) (.str "String"))).run.after twoFrames

theorem unprintable_reachable : unprintable.Reachable :=
  twoFrames_reachable.call (.data _) trivial

theorem set_atomic_unprintable :
    unprintable.Atomic (.ref 5) (.str "k") (.ref 8) (Frame.set (.ref 5) (.str "k") (.ref 8) false) ∧
      ¬ unprintable.Atomic (.ref 5) (.str "k") (.ref 8)
        (Frame.set (.ref 5) (.str "k") (.ref 8) true) := by
  have hiff := (Reachable.set_atomic_iff unprintable_reachable (mem_frames_iff.mpr ⟨0, rfl⟩)
    (.str "k") (.ref 8)).2
  refine ⟨(hiff false).mpr (by simp), fun hatomic => ?_⟩
  exact (hiff true).mp hatomic "k" rfl ⟨rfl, ⟨.missingAttribute, rfl⟩, by decide⟩

theorem traced_set_not_atomic : unprintable.Reachable ∧ Value.ref 5 ∈ unprintable.frames ∧
    Ends (Frame.set (.ref 5) (.str "k") (.ref 8) true) unprintable (fun _ _ => False)
      (fun fault w' => fault.title = "AttributeError" ∧
        Frame.bound? unprintable.heap (.ref 5) "k" = none ∧
        Frame.bound? w'.heap (.ref 5) "k" = some (.ref 8) ∧ ¬ unprintable.Untouched w') := by
  have hmem : Value.ref 5 ∈ unprintable.frames := mem_frames_iff.mpr ⟨0, rfl⟩
  refine ⟨unprintable_reachable, hmem, rfl, rfl, rfl, fun huntouched => ?_⟩
  have hown := huntouched (.ref 5) hmem
  exact absurd hown (by decide)

end World

end LexicalEnv
