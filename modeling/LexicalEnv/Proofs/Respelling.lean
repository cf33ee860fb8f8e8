import LexicalEnv.Proofs.Call
import Mathlib.Data.List.Forall2

/-!
# How a call is spelled

There are four ways to write a name and four to write a sequence, and no
operation tells them apart. Two calls that differ in them alone run the same: to
the same result and world, or to the same fault (`Respelled.run_eq`).
-/

namespace LexicalEnv

open LexicalEnv.Action (Ends)

namespace Heap

inductive Writes (h : Heap) (name : String) : Value → Prop
  | symbol (birth : Birth) : h.Writes name (.symbol name birth)
  | text (birth : Birth) : h.Writes name (.text name birth)
  | tuple {v tag inner : Value} {rest : List Value}
    (made : h.obj? v = some (.tuple (tag :: inner :: rest))) (symbol : tag.text? = some "Symbol")
    (inner_eq : inner.symbol? = some name ∨ inner.text? = some name) : h.Writes name v
  | tagged {v payload type : Value} (made : h.obj? v = some (Tagged.table payload type))
    (symbol : type.text? = some "Symbol")
    (payload_eq : payload.symbol? = some name ∨ payload.text? = some name) : h.Writes name v

inductive WritesAll (h : Heap) (members : List Value) : Value → Prop
  | list {v : Value} (made : h.obj? v = some (.list members)) : h.WritesAll members v
  | tuple {v : Value} (made : h.obj? v = some (.tuple members)) : h.WritesAll members v
  | tagged {v payload type : Value} (made : h.obj? v = some (Tagged.table payload type))
    (sequence : type.text? = some "List" ∨ type.text? = some "Vector")
    (held : h.obj? payload = some (.list members) ∨ h.obj? payload = some (.tuple members)) :
    h.WritesAll members v

/-- One value, or two ways to write one name. -/
def SameName (h : Heap) (a b : Value) : Prop := a = b ∨ ∃ name, h.Writes name a ∧ h.Writes name b

/-- One value, or two ways to write sequences whose members correspond. -/
def SameMembers (h : Heap) (same : Value → Value → Prop) (a b : Value) : Prop :=
  a = b ∨ ∃ members members', h.WritesAll members a ∧ h.WritesAll members' b ∧
    List.Forall₂ same members members'

/-- Two calls that differ only in how a key, a name of a parameter or a sequence is written. -/
inductive Respelled (h : Heap) : Action Value → Action Value → Prop
  | find {key key' : Value} (hk : h.SameName key key') (env : Value) (debug : Bool) :
    h.Respelled (Frame.find env key debug) (Frame.find env key' debug)
  | get {key key' : Value} (hk : h.SameName key key') (env : Value) (debug : Bool) :
    h.Respelled (Frame.get env key debug) (Frame.get env key' debug)
  | set {key key' : Value} (hk : h.SameName key key') (env value : Value) (debug : Bool) :
    h.Respelled (Frame.set env key value debug) (Frame.set env key' value debug)
  | sharedSet {key key' : Value} (hk : h.SameName key key') (id value : Value) :
    h.Respelled (Shared.ask id (.set key value)) (Shared.ask id (.set key' value))
  | sharedGet {key key' : Value} (hk : h.SameName key key') (id : Value) :
    h.Respelled (Shared.ask id (.get key)) (Shared.ask id (.get key'))
  | sharedFind {key key' : Value} (hk : h.SameName key key') (id : Value) :
    h.Respelled (Shared.ask id (.find key)) (Shared.ask id (.find key'))
  | childGet {key key' : Value} (hk : h.SameName key key') (id env : Value) :
    h.Respelled (Shared.childGet id env key) (Shared.childGet id env key')
  | param {key key' : Value} (hk : h.SameName key key') (kind : ParamKind) :
    h.Respelled (Param.make kind key) (Param.make kind key')
  | parse {symbols symbols' : Value} {members members' : List Value}
    (hm : h.items symbols = .ok members) (hm' : h.items symbols' = .ok members')
    (hs : List.Forall₂ h.SameName members members') :
    h.Respelled (ParamList.parse symbols) (ParamList.parse symbols')
  | extend {binds binds' exprs exprs' : Value} (hb : h.SameMembers h.SameName binds binds')
    (he : h.SameMembers (· = ·) exprs exprs') (outer : Value) (debug : Bool) (name : Value) :
    h.Respelled (Frame.extend outer binds exprs debug name)
      (Frame.extend outer binds' exprs' debug name)
  | close {params params' : Value} (hp : h.SameMembers h.SameName params params')
    (body env name : Value) :
    h.Respelled (Closure.make params body env name) (Closure.make params' body env name)
  | enter {args args' : Value} (ha : h.SameMembers (· = ·) args args') (closure : Value) :
    h.Respelled (Closure.enter closure args false) (Closure.enter closure args' false)

-- ---------------------------------------------------------------------------
-- What is read
-- ---------------------------------------------------------------------------

section
variable {h : Heap} {a b v : Value} {members members' : List Value} {name : String}

theorem Writes.nameOf (hw : h.Writes name v) : h.nameOf v = .ok name := by
  cases hw with
  | symbol birth => rfl
  | text birth => rfl
  | tuple made symbol inner_eq => exact nameOf_tuple made symbol inner_eq
  | tagged made symbol payload_eq => exact nameOf_tagged made symbol payload_eq

theorem Writes.param? (hw : h.Writes name v) : h.param? v = none := by
  cases hw with
  | symbol birth => rfl
  | text birth => rfl
  | tuple made => simp [Heap.param?, entries?, made, Obj.entries?]
  | tagged made => simp [Heap.param?, entries?, made, Tagged.table, Obj.entries?]

theorem WritesAll.sequenceOf (hw : h.WritesAll members v) : h.sequenceOf v = .ok members := by
  cases hw with
  | list made =>
    obtain ⟨a, rfl, -⟩ := exists_ref_of_obj? made
    simp [Heap.sequenceOf, tagged?, entries?, made, Obj.entries?, items, pure, Except.pure]
  | tuple made =>
    obtain ⟨a, rfl, -⟩ := exists_ref_of_obj? made
    simp [Heap.sequenceOf, tagged?, entries?, made, Obj.entries?, items, pure, Except.pure]
  | @tagged payload _ made sequence held =>
    have hitems : h.items payload = .ok members := by
      rcases held with held | held <;> obtain ⟨a, rfl, -⟩ := exists_ref_of_obj? held <;>
        simp [items, held, pure, Except.pure]
    simp only [Heap.sequenceOf, tagged?_table made, if_pos sequence, hitems]

theorem SameName.nameOf_eq (hs : h.SameName a b) : h.nameOf b = h.nameOf a := by
  rcases hs with rfl | ⟨name, ha, hb⟩
  · rfl
  · rw [ha.nameOf, hb.nameOf]

theorem SameName.param?_eq (hs : h.SameName a b) : h.param? b = h.param? a := by
  rcases hs with rfl | ⟨name, ha, hb⟩
  · rfl
  · rw [ha.param?, hb.param?]

theorem SameName.eq_of_param? (hs : h.SameName a b) (hp : (h.param? a).isSome) : b = a := by
  rcases hs with rfl | ⟨name, ha, -⟩
  · rfl
  · simp [ha.param?] at hp

theorem SameMembers.sequenceOf_eq (hs : h.SameMembers (· = ·) a b) :
    h.sequenceOf b = h.sequenceOf a := by
  rcases hs with rfl | ⟨members, members', ha, hb, hm⟩
  · rfl
  · obtain rfl := List.forall₂_eq_eq_eq ▸ hm
    rw [ha.sequenceOf, hb.sequenceOf]

theorem mapM_of_sameName {m : Type → Type} [Monad m] [LawfulMonad m] {α : Type} {f : Value → m α}
    (hf : ∀ a b, h.SameName a b → f b = f a) (hm : List.Forall₂ h.SameName members members') :
    members'.mapM f = members.mapM f := by
  induction hm with
  | nil => rfl
  | cons hs _ ih => rw [List.mapM_cons, List.mapM_cons, hf _ _ hs, ih]

theorem parseParams_of_sameName (hm : List.Forall₂ h.SameName members members') :
    h.parseParams members' = h.parseParams members := by
  rw [parseParams, parseParams, mapM_of_sameName (fun _ _ hs => hs.nameOf_eq) hm]

theorem eq_of_records {params : List Param} (hm : List.Forall₂ h.SameName members members')
    (hp : members.mapM h.param? = some params) : members' = members := by
  induction hm generalizing params with
  | nil => rfl
  | @cons a b members members' hs _ ih =>
    rw [List.mapM_cons] at hp
    obtain ⟨p, ha, hp⟩ := Option.bind_eq_some_iff.mp hp
    obtain ⟨rest, hrest, -⟩ := Option.bind_eq_some_iff.mp hp
    rw [hs.eq_of_param? (ha ▸ rfl), ih hrest]

theorem SameMembers.paramList_eq (hs : h.SameMembers h.SameName a b) :
    h.paramList b = h.paramList a := by
  rcases hs with rfl | ⟨members, members', ha, hb, hm⟩
  · rfl
  · have hparams := mapM_of_sameName (fun _ _ hs => hs.param?_eq) hm
    simp only [paramList, ha.sequenceOf, hb.sequenceOf, bind, Except.bind, hparams,
      parseParams_of_sameName hm]
    cases hp : members.mapM h.param? with
    | none => rfl
    | some params => rw [eq_of_records hm hp]

end

end Heap

-- ---------------------------------------------------------------------------
-- What is done
-- ---------------------------------------------------------------------------

namespace Action

variable {α β : Type} {x : Action α} {next next' : α → Action β} {w : World}
  {Q : α → World → Prop} {E : Fault → World → Prop}

theorem read_congr {look look' : Heap → Except Fault α} (hl : look' w.heap = look w.heap) :
    read look' w = read look w := by
  simp only [read, hl]

theorem read_bind_congr {look look' : Heap → Except Fault α} (next : α → Action β)
    (hl : look' w.heap = look w.heap) : (read look' >>= next) w = (read look >>= next) w := by
  rw [run_bind, run_bind, read_congr hl]

/-- Two actions that begin alike need to agree on what the beginning can lead to. -/
theorem Ends.bind_congr (hx : Ends x w Q E) (hn : ∀ a w', Q a w' → next' a w' = next a w') :
    (x >>= next') w = (x >>= next) w := by
  rw [run_bind, run_bind]
  cases hrun : x w with
  | ok a w' => exact hn a w' (hx.ok hrun)
  | error fault w' => rfl

end Action

open LexicalEnv.Action (read_congr read_bind_congr ends_read)

section
variable {w : World} {key key' binds binds' exprs exprs' args args' : Value}

namespace Frame

theorem find_respelled (hk : w.heap.SameName key key') (env : Value) (debug : Bool) :
    find env key' debug w = find env key debug w :=
  read_bind_congr _ hk.nameOf_eq

theorem get_respelled (hk : w.heap.SameName key key') (env : Value) (debug : Bool) :
    get env key' debug w = get env key debug w :=
  read_bind_congr _ hk.nameOf_eq

theorem set_respelled (hk : w.heap.SameName key key') (env value : Value) (debug : Bool) :
    set env key' value debug w = set env key value debug w :=
  read_bind_congr _ hk.nameOf_eq

theorem extend_respelled (hb : w.heap.paramList binds' = w.heap.paramList binds)
    (he : w.heap.sequenceOf exprs' = w.heap.sequenceOf exprs) (outer : Value) (debug : Bool)
    (name : Value) :
    extend outer binds' exprs' debug name w = extend outer binds exprs debug name w := by
  have hbinds : extend outer binds' exprs' debug name w = extend outer binds exprs' debug name w :=
    read_bind_congr _ hb
  refine hbinds.trans ((ends_read _ w).bind_congr ?_)
  rintro list w' rfl
  exact read_bind_congr _ he

end Frame

namespace Shared

theorem ask_respelled {request request' : Request} (id : Value)
    (hr : request'.op = request.op ∧ ∀ w', w'.heap = w.heap → ∀ frame,
      request'.perform frame w' = request.perform frame w') :
    ask id request' w = ask id request w := by
  refine (running_same id w).bind_congr ?_
  rintro actor w' rfl
  obtain ⟨printed, hrun⟩ := announce_run id actor (.str request.op) w'
  rw [hr.1]
  simp only [Action.run_bind, hrun]
  exact hr.2 { w' with printed := printed } rfl actor.frame

theorem childGet_respelled (hk : w.heap.SameName key key') (id env : Value) :
    childGet id env key' w = childGet id env key w := by
  have hfound : Ends (discard (actorOf id)) w (fun _ w' => w' = w) (fun _ w' => w' = w) :=
    Ends.map ((actorOf_ends id w).mono (fun _ _ h => h.1) fun _ _ h => h.1)
  refine hfound.bind_congr ?_
  rintro _ w' rfl
  cases hkey : w'.heap.isKey id with
  | true =>
    rw [Action.run_bind, Action.run_bind, frameOf, known_run _ hkey]
    exact read_bind_congr _ hk.nameOf_eq
  | false => simp [frameOf, known, Action.run_bind, hkey]

end Shared

theorem ParamList.parse_respelled {symbols symbols' : Value} {members members' : List Value}
    (hm : w.heap.items symbols = .ok members) (hm' : w.heap.items symbols' = .ok members')
    (hs : List.Forall₂ w.heap.SameName members members') : parse symbols' w = parse symbols w := by
  refine read_bind_congr _ ?_
  rw [hm, hm']
  exact Heap.parseParams_of_sameName hs

theorem Closure.enter_respelled (ha : w.heap.SameMembers (· = ·) args args') (closure : Value) :
    enter closure args' false w = enter closure args false w := by
  simp only [enter, Action.run_bind, Action.run_view]
  cases record? w.heap closure with
  | none => rfl
  | some record =>
    refine (ends_read (·.field record "closure_env") w).bind_congr ?_
    rintro env w' rfl
    refine (ends_read (·.field record "params") w').bind_congr ?_
    rintro params w' rfl
    refine (ends_read (·.field record "name") w').bind_congr ?_
    rintro name w' rfl
    exact Frame.extend_respelled rfl ha.sequenceOf_eq env false name

end

/-- In any world, two calls that differ only in how their names and sequences are written run the
same. Both answer the same and leave the same world, or both fail with the same fault in it. -/
theorem Heap.Respelled.run_eq {w : World} {x x' : Action Value} (hr : w.heap.Respelled x x') :
    x' w = x w := by
  cases hr with
  | find hk env debug => exact Frame.find_respelled hk env debug
  | get hk env debug => exact Frame.get_respelled hk env debug
  | set hk env value debug => exact Frame.set_respelled hk env value debug
  | sharedSet hk id value =>
    refine Shared.ask_respelled id ⟨rfl, fun w' he frame => ?_⟩
    exact Frame.set_respelled (he ▸ hk) frame value false
  | sharedGet hk id =>
    refine Shared.ask_respelled id ⟨rfl, fun w' he frame => ?_⟩
    exact Frame.get_respelled (he ▸ hk) frame false
  | sharedFind hk id =>
    refine Shared.ask_respelled id ⟨rfl, fun w' he frame => ?_⟩
    have hfind := Frame.find_respelled (w := w') (he ▸ hk) frame false
    simp only [Request.perform, Action.run_bind, hfind]
  | childGet hk id env => exact Shared.childGet_respelled hk id env
  | param hk kind => exact read_bind_congr _ hk.nameOf_eq
  | parse hm hm' hs => exact ParamList.parse_respelled hm hm' hs
  | extend hb he outer debug name =>
    exact Frame.extend_respelled hb.paramList_eq he.sequenceOf_eq outer debug name
  | close hp body env name => exact read_bind_congr _ hp.paramList_eq
  | enter ha closure => exact Closure.enter_respelled ha closure

namespace World

/-- The parameters `a & r` twice: a list with a tuple, a tagged value and a text for the names, and
a tagged tuple of symbols and text. And two arguments, in a list and in a tuple. -/
def writtenTwice : World :=
  let calls : List Call := [.data (.tuple [.str "Symbol", .str "a"]),
    .data (Tagged.table (.sym "&") (.str "Symbol")), .data (.list [.ref 8, .ref 9, .str "r"]),
    .data (.tuple [.sym "a", .str "&", .sym "r"]), .data (Tagged.table (.ref 11) (.str "Vector")),
    .data (.list [.int 1, .int 2]), .data (.tuple [.int 1, .int 2])]
  calls.foldl (fun w c => c.run.after w) twoFrames

theorem writtenTwice_names : writtenTwice.heap.SameMembers writtenTwice.heap.SameName (.ref 10)
    (.ref 12) := by
  have hvector : writtenTwice.heap.obj? (.ref 12) =
      some (Tagged.table (.ref 11) (.str "Vector")) := rfl
  refine .inr ⟨_, _, .list rfl, .tagged hvector (.inr rfl) (.inr rfl), ?_⟩
  refine .cons (.inr ⟨"a", .tuple rfl rfl (.inr rfl), .symbol none⟩) ?_
  refine .cons (.inr ⟨"&", .tagged rfl rfl (.inl rfl), .text none⟩) ?_
  exact .cons (.inr ⟨"r", .text none, .symbol none⟩) .nil

theorem respelled_writtenTwice : ∃ new w',
    Frame.extend (.ref 7) (.ref 10) (.ref 13) false (.str "f") writtenTwice = .ok new w' ∧
      Frame.extend (.ref 7) (.ref 12) (.ref 14) false (.str "f") writtenTwice = .ok new w' ∧
      (Frame.get new (.sym "a") false).answer w' = .ok (.int 1) := by
  have hargs : writtenTwice.heap.SameMembers (· = ·) (.ref 13) (.ref 14) :=
    .inr ⟨_, _, .list rfl, .tuple rfl, by simp⟩
  have hsame := Heap.Respelled.run_eq
    (.extend writtenTwice_names hargs (.ref 7) false (.str "f"))
  exact ⟨_, _, rfl, hsame, rfl⟩

end World

end LexicalEnv
