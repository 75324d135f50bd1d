import Bnfs.TheoryPrograms
import Mathlib.Data.Set.Insert
import Mathlib.Order.BooleanAlgebra.Set

/-! Programs that open and close handles, with a log of what they opened and closed. Replaying a log on the handles held
before gives those held after, and fails where a handle is closed that is not held. A program is neutral if it gives
back all that it opened and nothing else. The log goes with a program over a state in which some handles are open: the
program without the log is the given one, and the log accounts for every change of the open handles. -/

namespace Handles

open Programs

variable {State Handle α β : Type}

inductive Event (Handle : Type) where
  | opened (handle : Handle)
  | closed (handle : Handle)
  deriving DecidableEq

/-- The handles held after the events, if none was closed that was not held. -/
def replay [DecidableEq Handle] : List Handle → List (Event Handle) → Option (List Handle)
  | held, [] => some held
  | held, .opened handle :: rest => replay (handle :: held) rest
  | held, .closed handle :: rest => if handle ∈ held then replay (held.erase handle) rest else none

theorem replay_append [DecidableEq Handle] (held : List Handle) (events later : List (Event Handle)) :
    replay held (events ++ later) = (replay held events).bind fun held => replay held later := by
  induction events generalizing held with
  | nil => rfl
  | cons event rest ih =>
      cases event with
      | opened handle => exact ih (handle :: held)
      | closed handle =>
          rw [List.cons_append, replay, replay]
          split_ifs
          · exact ih (held.erase handle)
          · rfl

theorem replay_closed_head [DecidableEq Handle] (handle : Handle) (held : List Handle) (rest : List (Event Handle)) :
    replay (handle :: held) (.closed handle :: rest) = replay held rest := by
  rw [replay, if_pos List.mem_cons_self, List.erase_cons_head]

/-- What an event does to the handles that are open. -/
def Event.apply : Event Handle → Set Handle → Set Handle
  | .opened handle, handles => insert handle handles
  | .closed handle, handles => handles \ {handle}

/-- The handles that are open after the events. -/
def after (handles : Set Handle) (events : List (Event Handle)) : Set Handle :=
  events.foldl (fun handles event => event.apply handles) handles

theorem after_append (handles : Set Handle) (events later : List (Event Handle)) :
    after handles (events ++ later) = after (after handles events) later :=
  List.foldl_append

/-- What is opened was not open. -/
def OpensFree : Set Handle → List (Event Handle) → Prop
  | _, [] => True
  | handles, .opened handle :: rest => handle ∉ handles ∧ OpensFree (insert handle handles) rest
  | handles, .closed handle :: rest => OpensFree (handles \ {handle}) rest

theorem OpensFree.append {handles : Set Handle} {events later : List (Event Handle)} (h : OpensFree handles events)
    (hlater : OpensFree (after handles events) later) : OpensFree handles (events ++ later) := by
  induction events generalizing handles with
  | nil => exact hlater
  | cons event rest ih =>
      cases event with
      | opened handle => exact ⟨h.1, ih h.2 hlater⟩
      | closed handle => exact ih h hlater

/-- One handle more is held. -/
theorem insert_union_held (others : Set Handle) (held : List Handle) (handle : Handle) :
    insert handle (others ∪ {h | h ∈ held}) = others ∪ {h | h ∈ handle :: held} := by
  ext other
  simp only [Set.mem_insert_iff, Set.mem_union, Set.mem_ofPred_eq, List.mem_cons]
  exact or_left_comm

/-- One handle less. -/
theorem union_held_sdiff [DecidableEq Handle] {others : Set Handle} {held : List Handle} (hnodup : held.Nodup)
    (hapart : ∀ h ∈ held, h ∉ others) {handle : Handle} (hmem : handle ∈ held) :
    (others ∪ {h | h ∈ held}) \ {handle} = others ∪ {h | h ∈ held.erase handle} := by
  ext other
  simp only [Set.mem_sdiff, Set.mem_union, Set.mem_ofPred_eq, Set.mem_singleton_iff, hnodup.mem_erase_iff]
  have hother : other ∈ others → other ≠ handle := fun hin heq => hapart handle hmem (heq ▸ hin)
  rw [or_and_right]
  exact or_congr (and_iff_left_of_imp hother) and_comm

/-- Where nothing open is opened again, the handles that are open afterwards are those of others and those still held. -/
theorem after_eq_of_replay [DecidableEq Handle] {others : Set Handle} {held held' : List Handle}
    {events : List (Event Handle)} (hreplay : replay held events = some held')
    (hfree : OpensFree (others ∪ {h | h ∈ held}) events) (hnodup : held.Nodup) (hapart : ∀ h ∈ held, h ∉ others) :
    after (others ∪ {h | h ∈ held}) events = others ∪ {h | h ∈ held'} := by
  induction events generalizing held with
  | nil =>
      obtain rfl := Option.some.inj hreplay
      rfl
  | cons event rest ih =>
      cases event with
      | opened handle =>
          obtain ⟨hnew, hrest⟩ := hfree
          rw [insert_union_held] at hrest
          show after (insert handle _) rest = _
          rw [insert_union_held]
          refine ih hreplay hrest (List.nodup_cons.mpr ⟨fun hmem => hnew (Or.inr hmem), hnodup⟩) ?_
          exact List.forall_mem_cons.mpr ⟨fun hmem => hnew (Or.inl hmem), hapart⟩
      | closed handle =>
          rw [replay] at hreplay
          split_ifs at hreplay with hmem
          have hless := union_held_sdiff hnodup hapart hmem
          have hrest : OpensFree ((others ∪ {h | h ∈ held}) \ {handle}) rest := hfree
          rw [hless] at hrest
          show after (_ \ {handle}) rest = _
          rw [hless]
          exact ih hreplay hrest (hnodup.erase handle) fun h hin => hapart h (List.mem_of_mem_erase hin)

/-- What is held at the end of a log is held once, and others do not have it. -/
theorem replay_apart [DecidableEq Handle] {others : Set Handle} {held held' : List Handle}
    {events : List (Event Handle)} (hreplay : replay held events = some held')
    (hfree : OpensFree (others ∪ {h | h ∈ held}) events) (hnodup : held.Nodup) (hapart : ∀ h ∈ held, h ∉ others) :
    held'.Nodup ∧ ∀ h ∈ held', h ∉ others := by
  induction events generalizing held with
  | nil =>
      obtain rfl := Option.some.inj hreplay
      exact ⟨hnodup, hapart⟩
  | cons event rest ih =>
      cases event with
      | opened handle =>
          obtain ⟨hnew, hrest⟩ := hfree
          rw [insert_union_held] at hrest
          refine ih hreplay hrest (List.nodup_cons.mpr ⟨fun hmem => hnew (Or.inr hmem), hnodup⟩) ?_
          exact List.forall_mem_cons.mpr ⟨fun hmem => hnew (Or.inl hmem), hapart⟩
      | closed handle =>
          rw [replay] at hreplay
          split_ifs at hreplay with hmem
          have hrest : OpensFree ((others ∪ {h | h ∈ held}) \ {handle}) rest := hfree
          rw [union_held_sdiff hnodup hapart hmem] at hrest
          exact ih hreplay hrest (hnodup.erase handle) fun h hin => hapart h (List.mem_of_mem_erase hin)

/-- What is open is what was open at first and what is held, and nothing is both. -/
structure Accounted (first opened held : Set Handle) : Prop where
  opened : opened = first ∪ held
  apart : ∀ handle ∈ held, handle ∉ first

namespace Accounted

variable {first opened held : Set Handle} {handle : Handle}

theorem start (first : Set Handle) : Accounted first first ∅ :=
  ⟨(Set.union_empty first).symm, fun _ hmem => hmem.elim⟩

theorem free (h : Accounted first opened held) (hfree : handle ∉ opened) : handle ∉ first ∧ handle ∉ held := by
  rw [h.opened] at hfree
  exact not_or.mp hfree

/-- What was not open is opened and held. -/
theorem give (h : Accounted first opened held) (hfree : handle ∉ opened) :
    Accounted first (insert handle opened) (insert handle held) := by
  refine ⟨by rw [h.opened, Set.union_insert], fun other hother => ?_⟩
  rcases hother with rfl | hold
  · exact (h.free hfree).1
  · exact h.apart other hold

/-- What is held is closed and held no more. -/
theorem giveBack (h : Accounted first opened held) (hheld : handle ∈ held) :
    Accounted first (opened \ {handle}) (held \ {handle}) := by
  refine ⟨?_, fun other hother => h.apart other hother.1⟩
  have hstays : first \ {handle} = first := Set.sdiff_singleton_eq_self (h.apart handle hheld)
  rw [h.opened, Set.union_sdiff_distrib, hstays]

/-- What is open and neither held nor open at first is not accounted for. -/
theorem not_of_left {opened held : Set Handle} (hopen : handle ∈ opened) (hfirst : handle ∉ first)
    (hheld : handle ∉ held) : ¬ Accounted first opened held := fun h => by
  rw [h.opened] at hopen
  exact hopen.elim hfirst hheld

end Accounted

/-- A program whose result says what it opened, if anything. -/
def opening (handle : α → Option Handle) (x : StateM State α) : Logged State (Event Handle) α := fun s =>
  ((handle (x s).1).toList.map .opened, x s)

/-- A program that is told what to close, if anything. -/
def closing (handle : Option Handle) (x : StateM State α) : Logged State (Event Handle) α := fun s =>
  (handle.toList.map .closed, x s)

/-- Without the log it is the given program, and the log accounts for all that becomes open or is no longer. What is
opened was not open before. -/
structure Logs (handles : State → Set Handle) (x : StateM State α) (y : Logged State (Event Handle) α) : Prop where
  erases : Erases y x
  tracks : ∀ s, handles (x s).2 = after (handles s) (y s).1
  opensFree : ∀ s, OpensFree (handles s) (y s).1

namespace Logs

variable {handles : State → Set Handle}

theorem pure (a : α) : Logs handles (pure a) (pure a) := ⟨.pure a, fun _ => rfl, fun _ => trivial⟩

theorem bind {x : StateM State α} {y : Logged State (Event Handle) α} {f : α → StateM State β}
    {g : α → Logged State (Event Handle) β} (hx : Logs handles x y) (hf : ∀ a, Logs handles (f a) (g a)) :
    Logs handles (x >>= f) (y >>= g) where
  erases := hx.erases.bind fun a => (hf a).erases
  tracks s := by
    rw [bind_log, hx.erases s, after_append, ← hx.tracks s]
    exact (hf (x s).1).tracks (x s).2
  opensFree s := by
    rw [bind_log, hx.erases s]
    refine (hx.opensFree s).append ?_
    rw [← hx.tracks s]
    exact (hf (x s).1).opensFree (x s).2

theorem ite {c : Prop} [Decidable c] {x x' : StateM State α} {y y' : Logged State (Event Handle) α}
    (h : c → Logs handles x y) (h' : ¬ c → Logs handles x' y') :
    Logs handles (if c then x else x') (if c then y else y') := by
  by_cases hc : c
  · rw [if_pos hc, if_pos hc]
    exact h hc
  · rw [if_neg hc, if_neg hc]
    exact h' hc

theorem silent {x : StateM State α} (h : Keeps (fun s s' => handles s' = handles s) x) :
    Logs handles x (silent x) := ⟨.silent x, h, fun _ => trivial⟩

theorem opening {handle : α → Option Handle} {x : StateM State α}
    (hsome : ∀ s h, handle (x s).1 = some h → h ∉ handles s ∧ handles (x s).2 = insert h (handles s))
    (hnone : ∀ s, handle (x s).1 = none → handles (x s).2 = handles s) :
    Logs handles x (opening handle x) where
  erases _ := rfl
  tracks s := by
    unfold Handles.opening
    cases hresult : handle (x s).1 with
    | none => exact hnone s hresult
    | some h => exact (hsome s h hresult).2
  opensFree s := by
    unfold Handles.opening
    cases hresult : handle (x s).1 with
    | none => trivial
    | some h => exact ⟨(hsome s h hresult).1, trivial⟩

theorem closing {handle : Option Handle} {x : StateM State α}
    (hsome : ∀ h, handle = some h → ∀ s, handles (x s).2 = handles s \ {h})
    (hnone : handle = none → ∀ s, handles (x s).2 = handles s) : Logs handles x (closing handle x) where
  erases _ := rfl
  tracks s := by
    cases handle with
    | none => exact hnone rfl s
    | some h => exact hsome h rfl s
  opensFree s := by
    cases handle with
    | none => trivial
    | some h => trivial

/-- What a program leaves open is what was open before and what is held at the end of its log. -/
theorem handles_of_replay [DecidableEq Handle] {x : StateM State α} {y : Logged State (Event Handle) α} (h : Logs handles x y)
    {s : State} {held : List Handle} (hreplay : replay [] (y s).1 = some held) :
    handles (x s).2 = handles s ∪ {handle | handle ∈ held} := by
  have hstart : handles s ∪ {handle | handle ∈ ([] : List Handle)} = handles s :=
    Set.union_eq_self_of_subset_right fun _ hmem => absurd hmem List.not_mem_nil
  have hafter := after_eq_of_replay hreplay (hstart.symm ▸ h.opensFree s) List.nodup_nil
    fun _ hmem => absurd hmem List.not_mem_nil
  rw [hstart] at hafter
  exact (h.tracks s).trans hafter

/-- What is held at the end of the log was not open before, and is held once. -/
theorem fresh_of_replay [DecidableEq Handle] {x : StateM State α} {y : Logged State (Event Handle) α} (h : Logs handles x y)
    {s : State} {held : List Handle} (hreplay : replay [] (y s).1 = some held) :
    held.Nodup ∧ ∀ handle ∈ held, handle ∉ handles s := by
  have hstart : handles s ∪ {handle | handle ∈ ([] : List Handle)} = handles s :=
    Set.union_eq_self_of_subset_right fun _ hmem => absurd hmem List.not_mem_nil
  exact replay_apart hreplay (hstart.symm ▸ h.opensFree s) List.nodup_nil fun _ hmem => absurd hmem List.not_mem_nil

end Logs

section Neutral

variable [DecidableEq Handle]

/-- What is held afterwards is what was held before. -/
def Neutral (x : Logged State (Event Handle) α) : Prop := ∀ held s, replay held (x s).1 = some held

/-- The handle that was opened last is closed, and nothing else is left open or closed. -/
def Closes (handle : Handle) (x : Logged State (Event Handle) α) : Prop :=
  ∀ held s, replay (handle :: held) (x s).1 = some held

theorem Neutral.pure (a : α) : Neutral (pure a : Logged State (Event Handle) α) := fun _ _ => rfl

theorem Neutral.silent (x : StateM State α) : Neutral (silent x : Logged State (Event Handle) α) := fun _ _ => rfl

theorem Neutral.ite {c : Prop} [Decidable c] {x y : Logged State (Event Handle) α} (hx : c → Neutral x)
    (hy : ¬ c → Neutral y) : Neutral (if c then x else y) := by
  split_ifs with h
  · exact hx h
  · exact hy h

theorem replay_bind (x : Logged State (Event Handle) α) (f : α → Logged State (Event Handle) β) (held : List Handle) (s : State) :
    replay held ((x >>= f) s).1 =
      (replay held (x s).1).bind fun held => replay held (f (x s).2.1 (x s).2.2).1 := by
  rw [bind_log, replay_append]

/-- After a neutral program the rest is replayed on what was held before. -/
theorem Neutral.replay_bind {x : Logged State (Event Handle) α} (hx : Neutral x) (f : α → Logged State (Event Handle) β)
    (held : List Handle) (s : State) : replay held ((x >>= f) s).1 = replay held (f (x s).2.1 (x s).2.2).1 := by
  rw [Handles.replay_bind, hx held s, Option.bind_some]

theorem replay_silent_bind (x : StateM State α) (f : α → Logged State (Event Handle) β) (held : List Handle) (s : State) :
    replay held ((silent x >>= f) s).1 = replay held (f (x s).1 (x s).2).1 :=
  (Neutral.silent x).replay_bind f held s

theorem Neutral.bind {x : Logged State (Event Handle) α} {f : α → Logged State (Event Handle) β} (hx : Neutral x)
    (hf : ∀ a, Neutral (f a)) : Neutral (x >>= f) := fun held s =>
  (hx.replay_bind f held s).trans (hf _ _ _)

/-- After a program that closes the handle the rest is replayed without it. -/
theorem Closes.replay_bind {handle : Handle} {x : Logged State (Event Handle) α} (hx : Closes handle x)
    (f : α → Logged State (Event Handle) β) (held : List Handle) (s : State) :
    replay (handle :: held) ((x >>= f) s).1 = replay held (f (x s).2.1 (x s).2.2).1 := by
  rw [Handles.replay_bind, hx held s, Option.bind_some]

theorem Closes.bind {handle : Handle} {x : Logged State (Event Handle) α} {f : α → Logged State (Event Handle) β}
    (hx : Closes handle x) (hf : ∀ a, Neutral (f a)) : Closes handle (x >>= f) := fun held s =>
  (hx.replay_bind f held s).trans (hf _ _ _)

theorem Closes.closing (handle : Handle) (x : StateM State α) : Closes handle (closing (some handle) x) :=
  fun held _ => replay_closed_head handle held []

theorem Neutral.closing_none (x : StateM State α) : Neutral (closing none x : Logged State (Event Handle) α) := fun _ _ => rfl

/-- An opening is replayed on one handle more, if there is one. -/
theorem replay_opening_bind (handle : α → Option Handle) (x : StateM State α) (f : α → Logged State (Event Handle) β)
    (held : List Handle) (s : State) : replay held ((opening handle x >>= f) s).1 =
      replay ((handle (x s).1).toList ++ held) (f (x s).1 (x s).2).1 := by
  rw [replay_bind, opening]
  cases handle (x s).1 <;> rfl

/-- What is opened and closed again leaves nothing behind. -/
theorem Neutral.opening_bind {handle : α → Option Handle} {x : StateM State α} {f : α → Logged State (Event Handle) β}
    (hsome : ∀ a h, handle a = some h → Closes h (f a)) (hnone : ∀ a, handle a = none → Neutral (f a)) :
    Neutral (opening handle x >>= f) := fun held s => by
  rw [replay_opening_bind]
  cases hresult : handle (x s).1 with
  | none => exact hnone _ hresult held _
  | some h => exact hsome _ h hresult held _

end Neutral

end Handles
