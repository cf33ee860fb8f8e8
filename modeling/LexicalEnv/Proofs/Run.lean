import LexicalEnv.Tagged

/-!
# Runs of actions

`Ends x w Q E`: run from `w`, the action `x` ends in a result and a world that
satisfy `Q`, or in a fault and a world that satisfy `E`. Most actions only add to
the world: `Preserving` says that no object, frame or actor that is there changes,
whichever way the action ends.
-/

namespace LexicalEnv

-- ---------------------------------------------------------------------------
-- What may fail
-- ---------------------------------------------------------------------------

theorem bind_ok {ε α β : Type} {x : Except ε α} {f : α → Except ε β} {b : β} :
    x >>= f = .ok b ↔ ∃ a, x = .ok a ∧ f a = .ok b := by
  cases x <;> simp [bind, Except.bind]

theorem pure_ok {ε α : Type} {a b : α} : (pure a : Except ε α) = .ok b ↔ a = b := by
  simp [pure, Except.pure]

theorem foldlM_keeps {α β : Type} {f : β → α → Except Fault β} {P : β → Prop} {l : List α} {b r : β}
    (step : ∀ b, ∀ a ∈ l, ∀ b', P b → f b a = .ok b' → P b') (hb : P b)
    (hr : l.foldlM f b = .ok r) : P r := by
  induction l generalizing b with
  | nil =>
    rw [List.foldlM_nil, pure_ok] at hr
    exact hr ▸ hb
  | cons a l ih =>
    rw [List.foldlM_cons, bind_ok] at hr
    obtain ⟨b', ha, hr⟩ := hr
    exact ih (fun b a' hm => step b a' (List.mem_cons_of_mem _ hm))
      (step b a List.mem_cons_self b' hb ha) hr

theorem mapM_error {α β : Type} {f : α → Except Fault β} {l : List α} {fault : Fault}
    (h : l.mapM f = .error fault) : ∃ a ∈ l, f a = .error fault := by
  induction l with
  | nil => cases h
  | cons a l ih =>
    simp only [List.mapM_cons, bind, Except.bind] at h
    cases ha : f a with
    | error cause =>
      simp only [ha] at h
      obtain rfl := Except.error.inj h
      exact ⟨a, List.mem_cons_self, ha⟩
    | ok b =>
      cases hl : l.mapM f with
      | error cause =>
        simp only [ha, hl] at h
        obtain rfl := Except.error.inj h
        obtain ⟨a', hm, ha'⟩ := ih hl
        exact ⟨a', List.mem_cons_of_mem _ hm, ha'⟩
      | ok bs =>
        simp only [ha, hl] at h
        cases h

theorem mapM_eq_ok_iff {α β : Type} {f : α → Except Fault β} {l : List α} {r : List β} :
    l.mapM f = .ok r ↔ l.map f = r.map .ok := by
  induction l generalizing r with
  | nil => cases r <;> simp [pure, Except.pure]
  | cons a l ih =>
    rw [List.mapM_cons, bind_ok]
    simp only [bind_ok, pure_ok, ih]
    cases r <;> simp

theorem mapM_eq_some_iff {α β : Type} {f : α → Option β} {l : List α} {r : List β} :
    l.mapM f = some r ↔ l.map f = r.map some := by
  induction l generalizing r with
  | nil => cases r <;> simp [pure]
  | cons a l ih =>
    simp only [List.mapM_cons, bind, Option.bind_eq_some_iff, pure, Option.some.injEq, ih]
    cases r <;> simp

theorem mapM_ok_mem {α β : Type} {f : α → Except Fault β} {l : List α} {bs : List β}
    (h : l.mapM f = .ok bs) : ∀ a ∈ l, ∃ b, f a = .ok b := by
  intro a ha
  have hm : f a ∈ bs.map .ok := mapM_eq_ok_iff.mp h ▸ List.mem_map_of_mem ha
  obtain ⟨b, -, hb⟩ := List.mem_map.mp hm
  exact ⟨b, hb.symm⟩

theorem mapM_some_mem {α β : Type} {f : α → Option β} {l : List α} {r : List β}
    (hr : l.mapM f = some r) : ∀ b ∈ r, ∃ a ∈ l, f a = some b := by
  intro b hb
  have hm : some b ∈ l.map f := mapM_eq_some_iff.mp hr ▸ List.mem_map_of_mem hb
  exact List.mem_map.mp hm

theorem mem_of_mapM_some {α β : Type} {f : α → Option β} {l : List α} {r : List β} {a : α} {b : β}
    (hr : l.mapM f = some r) (ha : a ∈ l) (hb : f a = some b) : b ∈ r := by
  have hm : some b ∈ r.map some := mapM_eq_some_iff.mp hr ▸ List.mem_map.mpr ⟨a, ha, hb⟩
  simpa using hm

theorem mapM_none_iff {α β : Type} {f : α → Option β} {l : List α} :
    l.mapM f = none ↔ ∃ a ∈ l, f a = none := by
  induction l with
  | nil => simp [pure]
  | cons a l ih =>
    cases ha : f a with
    | none => simp [List.mapM_cons, ha, bind]
    | some b =>
      have htail : (a :: l).mapM f = none ↔ l.mapM f = none := by
        cases hl : l.mapM f <;> simp [List.mapM_cons, ha, hl, bind, pure]
      rw [htail, ih]
      simp [ha]

theorem mapM_some_mono {α β : Type} {f g : α → Option β} {l : List α} {r : List β}
    (hfg : ∀ a b, f a = some b → g a = some b) (hr : l.mapM f = some r) : l.mapM g = some r := by
  rw [mapM_eq_some_iff] at hr ⊢
  rw [← hr]
  refine List.map_congr_left fun a ha => ?_
  have hm : f a ∈ r.map some := hr ▸ List.mem_map_of_mem ha
  obtain ⟨b, -, hb⟩ := List.mem_map.mp hm
  rw [← hb, hfg a b hb.symm]

theorem filterM_eq_ok {α : Type} {f : α → Except Fault Bool} {p : α → Bool} {l : List α}
    (hf : ∀ a ∈ l, f a = .ok (p a)) : l.filterM f = .ok (l.filter p) := by
  have haux (kept : List α) : l.filterAuxM f kept = .ok ((l.filter p).reverse ++ kept) := by
    induction l generalizing kept with
    | nil => rfl
    | cons a l ih =>
      obtain ⟨ha, hl⟩ := List.forall_mem_cons.mp hf
      rw [List.filterAuxM, ha]
      refine (ih hl _).trans ?_
      cases hp : p a <;> simp [hp]
  rw [List.filterM, haux []]
  simp [bind, Except.bind, pure, Except.pure]

theorem mapM_congr {m : Type → Type} [Monad m] [LawfulMonad m] {α β : Type} {f g : α → m β}
    {l : List α} (hfg : ∀ a ∈ l, f a = g a) : l.mapM f = l.mapM g := by
  induction l with
  | nil => rfl
  | cons a l ih =>
    rw [List.mapM_cons, List.mapM_cons, hfg a List.mem_cons_self,
      ih fun a ha => hfg a (List.mem_cons_of_mem _ ha)]

theorem mem_toOption {α : Type} {x : Except Fault α} {a : α} : a ∈ x.toOption ↔ x = .ok a := by
  cases x <;> simp [Except.toOption]

-- ---------------------------------------------------------------------------
-- How an action ends
-- ---------------------------------------------------------------------------

namespace Action

variable {α β : Type} {x : Action α} {next : α → Action β} {w w' : World} {fault : Fault}
variable {Q : α → World → Prop} {R : β → World → Prop} {E : Fault → World → Prop}

def after (x : Action α) (w : World) : World :=
  match x w with
  | .ok _ w' | .error _ w' => w'

/-- What an action answers: its result, or the fault that it fails with. -/
def answer (x : Action α) (w : World) : Except Fault α :=
  match x w with
  | .ok a _ => .ok a
  | .error fault _ => .error fault

theorem run_discard (x : Action α) (w : World) :
    discard x w =
      match x w with
      | .ok _ w' => .ok () w'
      | .error fault w' => .error fault w' := by
  show EStateM.map (Function.const α ()) x w = _
  unfold EStateM.map
  cases x w <;> rfl

def Ends (x : Action α) (w : World) (Q : α → World → Prop) (E : Fault → World → Prop) : Prop :=
  match x w with
  | .ok a w' => Q a w'
  | .error fault w' => E fault w'

theorem Ends.of_ok (hx : x w = .ok a w') (h : Q a w') : Ends x w Q E := by
  simpa [Ends, hx] using h

theorem Ends.of_error (hx : x w = .error fault w') (h : E fault w') : Ends x w Q E := by
  simpa [Ends, hx] using h

theorem Ends.ok (h : Ends x w Q E) (hx : x w = .ok a w') : Q a w' := by
  simpa [Ends, hx] using h

theorem Ends.exists_ok (h : Ends x w Q E) (he : ∀ fault w', ¬ E fault w') :
    ∃ a w', x w = .ok a w' ∧ Q a w' := by
  unfold Ends at h
  cases hx : x w with
  | ok a w' => exact ⟨a, w', rfl, by simpa [hx] using h⟩
  | error fault w' => exact absurd (by simpa [hx] using h) (he fault w')

theorem Ends.after {P : World → Prop} (h : Ends x w (fun _ => P) (fun _ => P)) : P (x.after w) := by
  unfold Ends at h
  unfold Action.after
  cases hx : x w <;> simpa [hx] using h

theorem ends_after (x : Action α) (w : World) :
    Ends x w (fun _ w' => w' = x.after w) (fun _ w' => w' = x.after w) := by
  unfold Ends Action.after
  cases x w <;> rfl

theorem ends_read (look : Heap → Except Fault α) (w : World) :
    Ends (read look) w (fun _ w' => w' = w) (fun _ w' => w' = w) := by
  cases hl : look w.heap with
  | ok a => exact .of_ok (run_read hl) rfl
  | error fault => exact .of_error (run_read_error hl) rfl

theorem Ends.mono {Q' : α → World → Prop} {E' : Fault → World → Prop} (h : Ends x w Q E)
    (hq : ∀ a w', Q a w' → Q' a w') (he : ∀ fault w', E fault w' → E' fault w') :
    Ends x w Q' E' := by
  unfold Ends at h ⊢
  cases hx : x w with
  | ok a w' => exact hq _ _ (by simpa [hx] using h)
  | error fault w' => exact he _ _ (by simpa [hx] using h)

theorem Ends.bind (hx : Ends x w Q E) (hn : ∀ a w', Q a w' → Ends (next a) w' R E) :
    Ends (x >>= next) w R E := by
  unfold Ends at hx ⊢
  rw [run_bind]
  cases h : x w with
  | ok a w' => exact hn a w' (by simpa [h] using hx)
  | error fault w' => simpa [h] using hx

theorem Ends.map {f : α → β} (h : Ends x w (fun a => R (f a)) E) : Ends (f <$> x) w R E := by
  show match EStateM.map f x w with | .ok b w' => R b w' | .error fault w' => E fault w'
  unfold Ends at h
  unfold EStateM.map
  cases hx : x w <;> simpa [hx] using h

theorem Ends.pure {a : α} (h : Q a w) : Ends (Pure.pure a) w Q E := h

theorem Ends.throw {fault : Fault} (h : E fault w) : Ends (throw fault) w Q E := h

theorem Ends.read {look : Heap → Except Fault α}
    (hn : ∀ a, look w.heap = .ok a → Ends (next a) w R E)
    (he : ∀ fault, look w.heap = .error fault → E fault w) :
    Ends (Action.read look >>= next) w R E := by
  unfold Ends
  rw [run_bind]
  cases h : look w.heap with
  | ok a => simpa [Ends, run_read h] using hn a h
  | error fault => simpa [run_read_error h] using he fault h

theorem Ends.view {look : Heap → α} (hn : Ends (next (look w.heap)) w R E) :
    Ends (Action.view look >>= next) w R E := hn

theorem Ends.say {line : String} {next : Unit → Action β}
    (hn : Ends (next ()) { w with printed := w.printed ++ line ++ "\n" } R E) :
    Ends (Action.say line >>= next) w R E := hn

end Action

-- ---------------------------------------------------------------------------
-- Growth
-- ---------------------------------------------------------------------------

def Heap.Kept (h h' : Heap) : Prop := ∀ v o, h.obj? v = some o → h'.obj? v = some o

theorem Heap.Kept.refl (h : Heap) : h.Kept h := fun _ _ ho => ho

theorem Heap.Kept.trans {h h' h'' : Heap} (a : h.Kept h') (b : h'.Kept h'') : h.Kept h'' :=
  fun v o ho => b v o (a v o ho)

theorem Heap.Kept.obj?_eq_none {h h' : Heap} {v : Value} (hk : h.Kept h') (hv : h'.obj? v = none) :
    h.obj? v = none := by
  cases ho : h.obj? v with
  | none => rfl
  | some o => simp [hk v o ho] at hv

theorem Heap.lt_size_of_obj? {h : Heap} {a : Nat} {o : Obj} (ho : h.obj? (.ref a) = some o) :
    a < h.size :=
  (Array.getElem?_eq_some_iff.mp ho).1

theorem Heap.exists_ref_of_obj? {h : Heap} {v : Value} {o : Obj} (ho : h.obj? v = some o) :
    ∃ a : Nat, v = .ref a ∧ a < h.size := by
  cases v with
  | ref a => exact ⟨a, rfl, lt_size_of_obj? ho⟩
  | _ => simp [obj?] at ho

theorem Heap.obj?_size (h : Heap) : h.obj? (.ref h.size) = none := by
  simp [obj?, size]

theorem Heap.items_list {h : Heap} {v : Value} {items : List Value}
    (ho : h.obj? v = some (.list items)) : h.items v = .ok items := by
  obtain ⟨a, rfl, -⟩ := exists_ref_of_obj? ho
  simp [Heap.items, ho, pure, Except.pure]

theorem Heap.size_lt_of_fresh {h h' : Heap} {v : Value} {o : Obj} (hv : h.obj? v = none)
    (ho : h'.obj? v = some o) : h.size < h'.size := by
  obtain ⟨a, rfl, ha⟩ := exists_ref_of_obj? ho
  have hle : h.size ≤ a := Array.getElem?_eq_none_iff.mp hv
  omega

theorem Heap.kept_add (h : Heap) (o : Obj) : h.Kept (h.add o) := by
  intro v o' ho
  obtain ⟨a, rfl, ha⟩ := exists_ref_of_obj? ho
  rw [obj?_add, if_neg fun hv => Nat.ne_of_lt ha (Value.ref.inj hv), ho]

/-- A world with the same frames and actors that holds all objects of another, unchanged. -/
structure World.Grows (w w' : World) : Prop where
  kept : w.heap.Kept w'.heap
  frames : w'.frames = w.frames
  actors : w'.actors = w.actors

theorem World.Grows.refl (w : World) : w.Grows w := ⟨.refl _, rfl, rfl⟩

theorem World.Grows.trans {w w' w'' : World} (a : w.Grows w') (b : w'.Grows w'') : w.Grows w'' :=
  ⟨a.kept.trans b.kept, b.frames.trans a.frames, b.actors.trans a.actors⟩

namespace Action

variable {α β : Type} {x : Action α} {next : α → Action β} {w w' : World}

/-- However it ends, the action only adds to the world. -/
def Preserving (x : Action α) : Prop := ∀ w : World, w.Grows (x.after w)

theorem Preserving.ends (hx : Preserving x) (w : World) :
    Ends x w (fun _ w' => w.Grows w') (fun _ w' => w.Grows w') :=
  (ends_after x w).mono (fun _ _ h => h ▸ hx w) (fun _ _ h => h ▸ hx w)

theorem preserving_of_ends
    (hx : ∀ w, Ends x w (fun _ w' => w.Grows w') (fun _ w' => w.Grows w')) : Preserving x :=
  fun w => (hx w).after

theorem preserving_bind (hx : Preserving x) (hn : ∀ a, Preserving (next a)) :
    Preserving (x >>= next) :=
  preserving_of_ends fun w => (hx.ends w).bind fun a w' hg =>
    ((hn a).ends w').mono (fun _ _ h => hg.trans h) (fun _ _ h => hg.trans h)

theorem preserving_pure (a : α) : Preserving (pure a) := fun w => .refl w

theorem preserving_throw (fault : Fault) : Preserving (throw fault : Action α) := fun w => .refl w

theorem preserving_read (look : Heap → Except Fault α) : Preserving (read look) := by
  intro w
  unfold after read
  split <;> rename_i h <;> split at h <;> cases h <;> exact .refl w

theorem preserving_view (look : Heap → α) : Preserving (view look) := fun w => .refl w

theorem preserving_alloc (o : Obj) : Preserving (alloc o) :=
  fun w => ⟨w.heap.kept_add o, rfl, rfl⟩

theorem alloc_ends (w : World) (o : Obj) :
    Ends (alloc o) w (fun v w' => w.Grows w' ∧ w'.heap.obj? v = some o) (fun _ _ => False) :=
  Ends.of_ok rfl ⟨preserving_alloc o w, Heap.obj?_add_self w.heap o⟩

theorem preserving_own (v : Value) : Preserving (own v) := fun _ => ⟨.refl _, rfl, rfl⟩

theorem preserving_say (line : String) : Preserving (say line) := fun _ => ⟨.refl _, rfl, rfl⟩

theorem preserving_onActors (look : ActorSystem → α) : Preserving (onActors fun s => (look s, s)) :=
  fun _ => ⟨.refl _, rfl, rfl⟩

theorem preserving_ite {c : Prop} [Decidable c] {y : Action α} (hx : Preserving x)
    (hy : Preserving y) : Preserving (if c then x else y) := by
  split
  · exact hx
  · exact hy

theorem preserving_map (f : α → β) (hx : Preserving x) : Preserving (f <$> x) :=
  preserving_of_ends fun w => Ends.map (hx.ends w)

theorem preserving_mapM {f : α → Action β} (hf : ∀ a, Preserving (f a)) (l : List α) :
    Preserving (l.mapM f) := by
  induction l with
  | nil => exact preserving_pure []
  | cons a l ih =>
    rw [List.mapM_cons]
    exact preserving_bind (hf a) fun b => preserving_bind ih fun bs => preserving_pure (b :: bs)

theorem preserving_discard (hx : Preserving x) : Preserving (discard x) :=
  preserving_map (Function.const α ()) hx

end Action

end LexicalEnv
