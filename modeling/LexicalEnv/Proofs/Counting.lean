import LexicalEnv.Proofs.Places
import LexicalEnv.Proofs.Respelling
import LexicalEnv.Proofs.Tracing

/-!
# Counting arguments

The arity of a call is checked with the number of its arguments. The line that
announces a traced call counts what is passed for them, as it is: a tagged list
has two fields, however many members it holds. So the line tells the number of
arguments if they come in no tagged value, or if there are two of them, and else
not (`Wrote.trace_counts`).
-/

namespace LexicalEnv

-- ---------------------------------------------------------------------------
-- What was printed before
-- ---------------------------------------------------------------------------

namespace World

def behind (w : World) (before : String) : World := { w with printed := before ++ w.printed }

def Prints {α : Type} (w : World) (x : Action α) (text : String) : Prop :=
  (x.after w).printed = w.printed ++ text

theorem Prints.iff_eq {α : Type} {w : World} {x : Action α} {text : String}
    (hp : w.Prints x text) (text' : String) : w.Prints x text' ↔ text' = text := by
  rw [Prints, hp, String.append_right_inj]
  exact eq_comm

end World

namespace Action

variable {α β : Type} {x : Action α} {next : α → Action β}

/-- What was printed before has no influence, and stays in front of what is printed. -/
def Appends (x : Action α) : Prop :=
  ∀ (w : World) (before : String), x (w.behind before) =
    match x w with
    | .ok a w' => .ok a (w'.behind before)
    | .error fault w' => .error fault (w'.behind before)

theorem appends_pure (a : α) : Appends (pure a) := fun _ _ => rfl

theorem appends_bind (hx : Appends x) (hn : ∀ a, Appends (next a)) : Appends (x >>= next) := by
  intro w before
  rw [run_bind, run_bind, hx w before]
  cases x w with
  | ok a w' => exact hn a w' before
  | error fault w' => rfl

theorem appends_read (look : Heap → Except Fault α) : Appends (read look) := by
  intro w before
  simp only [read, World.behind]
  cases look w.heap <;> rfl

theorem appends_alloc (o : Obj) : Appends (alloc o) := fun _ _ => rfl

theorem appends_enroll (frame : Value) : Appends (enroll frame) := fun _ _ => rfl

theorem appends_say (line : String) : Appends (say line) := by
  intro w before
  simp [say, World.behind, String.append_assoc]

theorem Appends.exists_prints (hx : Appends x) (w : World) :
    ∃ text, ∀ printed, { w with printed := printed }.Prints x text := by
  refine ⟨(x.after { w with printed := "" }).printed, fun printed => ?_⟩
  have hrun := hx { w with printed := "" } printed
  simp only [World.behind, String.append_empty] at hrun
  simp only [World.Prints, after, hrun]
  cases x { w with printed := "" } <;> rfl

end Action

open LexicalEnv.Action (appends_pure appends_bind appends_read appends_alloc appends_enroll
  appends_say)

theorem Frame.appends_pairUp (args : List Value) (position : Nat) (params : List Param) :
    Action.Appends (pairUp args position params) := by
  induction params generalizing position with
  | nil => exact appends_pure []
  | cons p params ih =>
    obtain ⟨kind, name⟩ := p
    cases kind with
    | positional =>
      exact appends_bind (appends_read _) fun _ =>
        appends_bind (ih (position + 1)) fun _ => appends_pure _
    | rest =>
      exact appends_bind (appends_bind (appends_alloc _) fun _ => appends_alloc _) fun _ =>
        appends_pure _

theorem Frame.appends_extend (outer binds exprs : Value) (debug : Bool) (name : Value) :
    Action.Appends (extend outer binds exprs debug name) := by
  refine appends_bind (appends_read _) fun list => ?_
  refine appends_bind (appends_read _) fun args => ?_
  refine appends_bind (appends_read _) fun _ => ?_
  refine appends_bind (appends_pairUp args 0 list.params) fun _ => ?_
  refine appends_bind (appends_read _) fun entries => ?_
  have hcreate : Action.Appends (create outer entries) :=
    appends_bind (appends_alloc _) fun _ => appends_alloc _
  have henrolled (frame : Value) : Action.Appends (enrolled frame) :=
    appends_bind (appends_enroll frame) fun _ => appends_pure frame
  refine appends_bind hcreate fun frame => ?_
  cases debug with
  | false => exact henrolled frame
  | true => exact appends_bind (appends_read _) fun line =>
      appends_bind (appends_say _) fun _ => henrolled frame

-- ---------------------------------------------------------------------------
-- Counting
-- ---------------------------------------------------------------------------

/-- What is counted of a value that writes these members: themselves, or the fields of the tagged
value that holds them. -/
def Heap.counted (h : Heap) (members : List Value) (args : Value) : Nat :=
  if (h.tagged? args).isSome then 2 else members.length

section
variable {h : Heap} {members : List Value} {args : Value}

theorem Heap.WritesAll.count (hw : h.WritesAll members args) :
    h.count args = .ok (h.counted members args) := by
  cases hw with
  | list made =>
    obtain ⟨a, rfl, -⟩ := exists_ref_of_obj? made
    simp [Heap.count, counted, items, tagged?, entries?, made, Obj.entries?, bind, Except.bind,
      pure, Except.pure]
  | tuple made =>
    obtain ⟨a, rfl, -⟩ := exists_ref_of_obj? made
    simp [Heap.count, counted, items, tagged?, entries?, made, Obj.entries?, bind, Except.bind,
      pure, Except.pure]
  | tagged made sequence held =>
    obtain ⟨a, rfl, -⟩ := exists_ref_of_obj? made
    simp [Heap.count, counted, tagged?_table made, items, made, Tagged.table, Obj.entries?, bind,
      Except.bind, pure, Except.pure]

theorem Heap.counted_eq_iff :
    members.length = h.counted members args ↔ h.tagged? args = none ∨ members.length = 2 := by
  unfold counted
  cases h.tagged? args <;> simp

theorem Closure.callLine_inj {called text : String} {count count' : Nat} :
    callLine called text count = callLine called text count' ↔ count = count' := by
  simp only [callLine, String.append_left_inj, String.append_right_inj, repr_injective.eq_iff]

end

-- ---------------------------------------------------------------------------
-- Traced calls
-- ---------------------------------------------------------------------------

namespace World

variable {w : World} {closure : Value}

/-- How a traced call ends that is given these members for arguments: it prints a line that says
how many there are, or what else is counted, and then what a frame made of them prints. Whether it
answers is decided by how many there are. -/
structure TracedCall (w : World) (closure callee : Value) (s : Signature) (text rest : String)
    (members : List Value) (args : Value) : Prop where
  prints : w.Prints (Closure.enter closure args true)
    (Closure.callLine (w.heap.display callee) text (w.heap.counted members args) ++ "\n" ++ rest)
  fit : s.Accepts members.length →
    ∃ frame, (Closure.enter closure args true).answer w = .ok frame
  unfit : ¬ s.Accepts members.length → (Closure.enter closure args true).answer w =
    .error (w.heap.arityFault callee (.str s.expected) (.int members.length))

theorem TracedCall.prints_iff {callee : Value} {s : Signature} {text rest : String}
    {members : List Value} {args : Value}
    (h : w.TracedCall closure callee s text rest members args) (count : Nat) :
    w.Prints (Closure.enter closure args true)
      (Closure.callLine (w.heap.display callee) text count ++ "\n" ++ rest) ↔
        count = w.heap.counted members args := by
  rw [h.prints.iff_eq]
  simp only [String.append_left_inj, Closure.callLine_inj]

/-- What a frame prints does not depend on how the arguments are written, or on the line before. -/
theorem exists_printed (w : World) (outer binds name : Value) (members : List Value) :
    ∃ rest, ∀ line args, w.heap.WritesAll members args →
      (w.said line).Prints (Frame.extend outer binds args true name) rest := by
  by_cases hex : ∃ args, w.heap.WritesAll members args
  · obtain ⟨args₀, hargs₀⟩ := hex
    obtain ⟨rest, hrest⟩ := (Frame.appends_extend outer binds args₀ true name).exists_prints w
    refine ⟨rest, fun line args hargs => ?_⟩
    have hsequence : (w.said line).heap.sequenceOf args = (w.said line).heap.sequenceOf args₀ :=
      hargs.sequenceOf.trans hargs₀.sequenceOf.symm
    have hsame : Frame.extend outer binds args true name (w.said line) =
        Frame.extend outer binds args₀ true name (w.said line) :=
      Frame.extend_respelled rfl hsequence outer true name
    rw [Prints, Action.after, hsame]
    exact hrest _
  · exact ⟨"", fun line args hargs => absurd ⟨args, hargs⟩ hex⟩

theorem Wrote.exists_tracedCall (hw : w.Wrote closure) :
    ∃ env callee stored entries records s text,
      Closure.Keeps w.heap closure env callee stored entries records ∧ s.Describes records ∧
      Closure.Shows w.heap closure text ∧
      ∀ members, ∃ rest, ∀ args, w.heap.WritesAll members args →
        w.TracedCall closure callee s text rest members args := by
  obtain ⟨hsound, env, callee, stored, entries, records, s, hk, hd, he⟩ := hw.keeps
  obtain ⟨text, hshows, htraced⟩ := hk.enter_traced
  have hstored := Heap.paramList_of_records hk.sequenceOf_eq hk.params hd
  refine ⟨env, callee, stored, entries, records, s, text, hk, hd, hshows, fun members => ?_⟩
  obtain ⟨rest, hrest⟩ := w.exists_printed env stored callee members
  refine ⟨rest, fun args hargs => ?_⟩
  have hrun := (htraced args).2 _ hargs.count
  -- The line comes first, so the frame is made in a world that differs in what is printed.
  generalize hline : Closure.callLine (w.heap.display callee) text
    (w.heap.counted members args) = line at hrun
  have hsound' := hsound.effect (.grown (w.alike_said line).grows)
  refine ⟨?_, fun ha => ?_, fun ha => ?_⟩
  · have hprints : ((Frame.extend env stored args true callee).after (w.said line)).printed =
        w.printed ++ line ++ "\n" ++ rest := hrest line args hargs
    rw [Prints, hline, Action.after, hrun]
    simpa only [Action.after, String.append_assoc] using hprints
  · obtain ⟨new, w', hnew, -⟩ :=
      hsound'.extend_run he hstored hd hargs.sequenceOf ha true callee
    exact ⟨new, by rw [Action.answer, hrun, hnew]⟩
  · have hfails := Frame.extend_of_described (w := w.said line) env callee true hstored hd
      hargs.sequenceOf
    rw [if_neg ha] at hfails
    rw [Action.answer, hrun, hfails]
    rfl

/-- A traced call of a closure that an earlier call wrote prints the same for two ways to write its
arguments if the same is counted of them, and else not. The number that it prints is the number of
the arguments, with which the arity is checked and which an arity fault reports, if they come in no
tagged value or if there are two of them, and else not. -/
theorem Wrote.trace_counts (hw : w.Wrote closure) :
    ∃ env callee stored entries records s text,
      Closure.Keeps w.heap closure env callee stored entries records ∧ s.Describes records ∧
      Closure.Shows w.heap closure text ∧
      ∀ members, ∃ rest, ∀ args, w.heap.WritesAll members args →
        w.TracedCall closure callee s text rest members args ∧
        (w.Prints (Closure.enter closure args true)
            (Closure.callLine (w.heap.display callee) text members.length ++ "\n" ++ rest) ↔
          w.heap.tagged? args = none ∨ members.length = 2) ∧
        ∀ args', w.heap.WritesAll members args' →
          (((Closure.enter closure args' true).after w).printed =
              ((Closure.enter closure args true).after w).printed ↔
            w.heap.counted members args' = w.heap.counted members args) := by
  obtain ⟨env, callee, stored, entries, records, s, text, hk, hd, hshows, hcalls⟩ :=
    hw.exists_tracedCall
  refine ⟨env, callee, stored, entries, records, s, text, hk, hd, hshows, fun members => ?_⟩
  obtain ⟨rest, hcall⟩ := hcalls members
  refine ⟨rest, fun args hargs => ⟨hcall args hargs, ?_, fun args' hargs' => ?_⟩⟩
  · rw [(hcall args hargs).prints_iff, Heap.counted_eq_iff]
  · rw [(hcall args hargs).prints, (hcall args' hargs').prints]
    simp only [String.append_left_inj, String.append_right_inj, Closure.callLine_inj]

def listPassed : World :=
  (Call.data (Tagged.table (.ref 8) (.str "List"))).run.after definedLater

theorem listPassed_wrote : listPassed.Wrote (.ref 13) :=
  definedLater_wrote.call (.data (Tagged.table (.ref 8) (.str "List"))) trivial

theorem listPassed_writes : listPassed.heap.WritesAll [.sym "a", .sym "&", .sym "r"] (.ref 8) ∧
    listPassed.heap.WritesAll [.sym "a", .sym "&", .sym "r"] (.ref 14) :=
  ⟨.list rfl, .tagged rfl (.inl rfl) (.inl rfl)⟩

theorem trace_counts_listPassed : listPassed.Wrote (.ref 13) ∧ ∃ called text rest,
    listPassed.Prints (Closure.enter (.ref 13) (.ref 8) true)
        (Closure.callLine called text 3 ++ "\n" ++ rest) ∧
      ¬ listPassed.Prints (Closure.enter (.ref 13) (.ref 14) true)
        (Closure.callLine called text 3 ++ "\n" ++ rest) := by
  obtain ⟨_, _, _, _, _, _, text, -, -, -, hcounts⟩ := Wrote.trace_counts listPassed_wrote
  obtain ⟨rest, hcount⟩ := hcounts [.sym "a", .sym "&", .sym "r"]
  obtain ⟨-, hlisted, -⟩ := hcount _ listPassed_writes.1
  obtain ⟨-, htagged, -⟩ := hcount _ listPassed_writes.2
  refine ⟨listPassed_wrote, _, text, rest, hlisted.mpr (.inl rfl), fun hprints => ?_⟩
  rcases htagged.mp hprints with hnone | hlength
  · cases hnone
  · cases hlength

/-- The same three arguments, written in two ways: the traces of the calls differ, and one of them
tells of two arguments. -/
theorem tagged_arguments_miscounted : listPassed.Wrote (.ref 13) ∧
    listPassed.heap.WritesAll [.sym "a", .sym "&", .sym "r"] (.ref 8) ∧
    listPassed.heap.WritesAll [.sym "a", .sym "&", .sym "r"] (.ref 14) ∧
    listPassed.Prints (Closure.enter (.ref 13) (.ref 8) true)
      "Call f (a & r) with 3 argument(s)\nNew frame with 2 bindings at depth 3\n" ∧
    listPassed.Prints (Closure.enter (.ref 13) (.ref 14) true)
      "Call f (a & r) with 2 argument(s)\nNew frame with 2 bindings at depth 3\n" ∧
    ((Closure.enter (.ref 13) (.ref 14) true).after listPassed).printed ≠
      ((Closure.enter (.ref 13) (.ref 8) true).after listPassed).printed := by
  have hlisted : listPassed.Prints (Closure.enter (.ref 13) (.ref 8) true)
    "Call f (a & r) with 3 argument(s)\nNew frame with 2 bindings at depth 3\n" := rfl
  have htagged : listPassed.Prints (Closure.enter (.ref 13) (.ref 14) true)
    "Call f (a & r) with 2 argument(s)\nNew frame with 2 bindings at depth 3\n" := rfl
  refine ⟨listPassed_wrote, listPassed_writes.1, listPassed_writes.2, hlisted, htagged, ?_⟩
  rw [htagged, hlisted, Ne, String.append_right_inj]
  decide

end World

end LexicalEnv
