import Bnfs.TheoryRuns
import Mathlib.Data.List.Perm.Basic
import Mathlib.Data.List.Range
import Mathlib.Data.Option.Basic
import Mathlib.Data.Multiset.AddSub

/-! A waiting line whose order may be changed at any time. The entries carry no mark, so two of them may be
equal; what makes them different is a ticket, the number an entry would draw when it joins. A ledger holds
the tickets alone and says by construction that each is waiting or served, and that once. Every run of a line
is a run of a ledger, whatever the orders were. -/

namespace WaitingLine

open Runs

/-- The tickets drawn so far are those that are served, in their order, and those that wait. -/
structure Ledger where
  issued : Nat
  waiting : List Nat
  served : List Nat
  complete : (served ++ waiting).Perm (List.range issued)

namespace Ledger

def empty : Ledger := ⟨0, [], [], .nil⟩

def join (L : Ledger) : Ledger where
  issued := L.issued + 1
  waiting := L.waiting ++ [L.issued]
  served := L.served
  complete := by
    rw [← List.append_assoc, List.range_succ]
    exact L.complete.append_right [L.issued]

def reorder (L : Ledger) {waiting : List Nat} (h : waiting.Perm L.waiting) : Ledger where
  issued := L.issued
  waiting := waiting
  served := L.served
  complete := (h.append_left L.served).trans L.complete

/-- The ticket in front is served. If none waits, nothing changes. -/
def serve (L : Ledger) : Ledger where
  issued := L.issued
  waiting := L.waiting.tail
  served := L.served ++ L.waiting.take 1
  complete := by
    rw [List.append_assoc, ← List.drop_one, List.take_append_drop]
    exact L.complete

theorem nodup (L : Ledger) : (L.served ++ L.waiting).Nodup :=
  L.complete.nodup_iff.mpr List.nodup_range

theorem served_nodup (L : Ledger) : L.served.Nodup := L.nodup.of_append_left

theorem lt_issued (L : Ledger) {k : Nat} (h : k ∈ L.served ++ L.waiting) : k < L.issued :=
  List.mem_range.mp (L.complete.mem_iff.mp h)

theorem served_lt (L : Ledger) {k : Nat} (h : k ∈ L.served) : k < L.issued :=
  L.lt_issued (List.mem_append_left _ h)

end Ledger

variable {α : Type}

/-- What joined and what was served, both in their order, and what waits. -/
structure Line (α : Type) where
  joined : List α
  served : List α
  waiting : List α

inductive Move where
  | join
  | reorder
  | serve
  | stay

/-- The moves of a line. Any order may follow any other. -/
inductive Step : Line α → Move → Line α → Prop
  | join {s : Line α} (x : α) : Step s .join ⟨s.joined ++ [x], s.served, s.waiting ++ [x]⟩
  | reorder {s : Line α} {waiting : List α} (h : waiting.Perm s.waiting) :
      Step s .reorder ⟨s.joined, s.served, waiting⟩
  | serve {s : Line α} :
      Step s .serve ⟨s.joined, s.served ++ s.waiting.take 1, s.waiting.tail⟩
  | stay {s : Line α} : Step s .stay s

/-- Nothing is lost, doubled or altered: what joined is what was served and what waits. -/
def Line.Conserved (s : Line α) : Prop :=
  (s.joined : Multiset α) = (s.served : Multiset α) + (s.waiting : Multiset α)

/-- The tickets of the ledger stand for the entries of the line. -/
structure Records (L : Ledger) (s : Line α) : Prop where
  issued : s.joined.length = L.issued
  served : L.served.map (s.joined[·]?) = s.served.map some
  waiting : L.waiting.map (s.joined[·]?) = s.waiting.map some

theorem Records.empty : Records .empty (⟨[], [], []⟩ : Line α) := ⟨rfl, rfl, rfl⟩

/-- The tickets in the order they were drawn stand for what joined. -/
theorem map_range_getElem? (xs : List α) : (List.range xs.length).map (xs[·]?) = xs.map some := by
  apply List.ext_getElem
  · rw [List.length_map, List.length_map, List.length_range]
  · intro k hk _
    have hlt : k < xs.length := by simpa using hk
    rw [List.getElem_map, List.getElem_map, List.getElem_range, List.getElem?_eq_getElem hlt]

theorem Records.conserved {L : Ledger} {s : Line α} (h : Records L s) : s.Conserved := by
  have hmarked := L.complete.map (s.joined[·]?)
  rw [List.map_append, h.served, h.waiting, ← List.map_append, ← h.issued, map_range_getElem?] at hmarked
  have hperm := (List.map_perm_map_iff (Option.some_injective α)).mp hmarked
  rw [Line.Conserved, Multiset.coe_add]
  exact (Multiset.coe_eq_coe.mpr hperm).symm

/-- A later entry does not change what an earlier ticket stands for. -/
theorem map_getElem?_append {tickets : List Nat} {joined : List α} (x : α)
    (h : ∀ k ∈ tickets, k < joined.length) :
    tickets.map ((joined ++ [x])[·]?) = tickets.map (joined[·]?) :=
  List.map_congr_left fun k hk => List.getElem?_append_left (h k hk)

theorem Records.join {L : Ledger} {s : Line α} (h : Records L s) (x : α) :
    Records L.join ⟨s.joined ++ [x], s.served, s.waiting ++ [x]⟩ where
  issued := by
    rw [List.length_append, h.issued]
    rfl
  served := by
    have hlt : ∀ k ∈ L.served, k < s.joined.length := fun k hk => h.issued ▸ L.served_lt hk
    exact (map_getElem?_append x hlt).trans h.served
  waiting := by
    have hlt : ∀ k ∈ L.waiting, k < s.joined.length := fun k hk =>
      h.issued ▸ L.lt_issued (List.mem_append_right _ hk)
    have hnew : (s.joined ++ [x])[L.issued]? = some x := by rw [← h.issued, List.getElem?_concat_length]
    rw [Ledger.join, List.map_append, map_getElem?_append x hlt, h.waiting, List.map_append]
    exact congrArg (s.waiting.map some ++ [·]) hnew

/-- The tickets can follow their entries into any order. -/
theorem Records.reorder {L : Ledger} {s : Line α} (h : Records L s) {waiting : List α}
    (hperm : waiting.Perm s.waiting) :
    ∃ (tickets : List Nat) (ht : tickets.Perm L.waiting),
      Records (L.reorder ht) ⟨s.joined, s.served, waiting⟩ := by
  have hmarked : (waiting.map some).Perm (L.waiting.map (s.joined[·]?)) := by
    rw [h.waiting]
    exact hperm.map some
  have hlift := congrFun₂ (List.eq_map_comp_perm (s.joined[·]?)) (waiting.map some) L.waiting
  obtain ⟨tickets, hentries, ht⟩ := hlift.mpr hmarked
  exact ⟨tickets, ht, h.issued, h.served, hentries.symm⟩

theorem Records.serve {L : Ledger} {s : Line α} (h : Records L s) :
    Records L.serve ⟨s.joined, s.served ++ s.waiting.take 1, s.waiting.tail⟩ where
  issued := h.issued
  served := by
    rw [Ledger.serve, List.map_append, h.served, List.map_take, h.waiting, List.map_append, List.map_take]
  waiting := by
    rw [Ledger.serve, List.map_tail, h.waiting, List.map_tail]

/-- One ledger goes over into the next, and what it has served stays served. -/
theorem Records.step {L : Ledger} {s t : Line α} {move : Move} (h : Records L s) (hstep : Step s move t) :
    ∃ L' : Ledger, Records L' t ∧ L.served <+: L'.served := by
  cases hstep with
  | join x => exact ⟨L.join, h.join x, List.prefix_rfl⟩
  | reorder hperm =>
      obtain ⟨_, ht, hrecords⟩ := h.reorder hperm
      exact ⟨L.reorder ht, hrecords, List.prefix_rfl⟩
  | serve => exact ⟨L.serve, h.serve, List.prefix_append _ _⟩
  | stay => exact ⟨L, h, List.prefix_rfl⟩

/-- The tickets tell which entry each service was for. -/
def Serves (tickets : List Nat) (s : Line α) : Prop := tickets.map (s.joined[·]?) = s.served.map some

/-- One line came before the other: entries and services were added only, and what it had served had joined. -/
structure Before (tickets : List Nat) (s t : Line α) : Prop where
  joined : s.joined <+: t.joined
  served : s.served <+: t.served
  drawn : ∀ k ∈ tickets.take s.served.length, k < s.joined.length

theorem Step.joined_prefix {s t : Line α} {move : Move} (hstep : Step s move t) : s.joined <+: t.joined := by
  cases hstep with
  | join x => exact List.prefix_append _ _
  | reorder | serve | stay => exact List.prefix_rfl

theorem Step.served_prefix {s t : Line α} {move : Move} (hstep : Step s move t) : s.served <+: t.served := by
  cases hstep with
  | serve => exact List.prefix_append _ _
  | join | reorder | stay => exact List.prefix_rfl

theorem Records.length_served {L : Ledger} {s : Line α} (h : Records L s) :
    L.served.length = s.served.length := by
  have hlength := congrArg List.length h.served
  rwa [List.length_map, List.length_map] at hlength

theorem Records.before_self {L : Ledger} {s : Line α} (h : Records L s) : Before L.served s s where
  joined := List.prefix_rfl
  served := List.prefix_rfl
  drawn _ hk := h.issued ▸ L.served_lt (List.mem_of_mem_take hk)

/-- A run of a line is a run of ledgers: the last of them serves for all the states on the way. -/
theorem exists_records {trace : List (Line α × Move)} {t : Line α}
    (hrun : Run Step ⟨[], [], []⟩ trace t) :
    ∃ L : Ledger, Records L t ∧ ∀ s, Visits trace t s → Before L.served s t := by
  induction hrun with
  | nil =>
      refine ⟨.empty, .empty, fun s hvisit => ?_⟩
      rw [visits_nil.mp hvisit]
      exact Records.empty.before_self
  | @cons trace s move t hrun hstep ih =>
      obtain ⟨L, hrecords, hbefore⟩ := ih
      obtain ⟨L', hrecords', hextends⟩ := hrecords.step hstep
      refine ⟨L', hrecords', fun u hvisit => ?_⟩
      rcases visits_cons.mp hvisit with rfl | hvisit
      · exact hrecords'.before_self
      · have hu := hbefore u hvisit
        have hlength : u.served.length ≤ L.served.length := by
          rw [hrecords.length_served]
          exact hu.served.length_le
        refine ⟨hu.joined.trans hstep.joined_prefix, hu.served.trans hstep.served_prefix, fun k hk => ?_⟩
        obtain ⟨later, hlater⟩ := hextends
        rw [← hlater, List.take_append_of_le_length hlength] at hk
        exact hu.drawn k hk

/-- In every state of a run the entries are conserved. -/
theorem conserved_of_run {trace : List (Line α × Move)} {s t : Line α}
    (hrun : Run Step ⟨[], [], []⟩ trace t) (hvisit : Visits trace t s) : s.Conserved := by
  have hguard : Guarded (fun _ _ => True) trace := fun _ _ => trivial
  refine hrun.visits Line.Conserved (fun _ u hrun _ => ?_) hguard hvisit
  obtain ⟨_, hrecords, _⟩ := exists_records hrun
  exact hrecords.conserved

/-- The services of a run can be told apart: each is for an entry of its own, which joined before it. -/
theorem served_once {trace : List (Line α × Move)} {t : Line α} (hrun : Run Step ⟨[], [], []⟩ trace t) :
    ∃ tickets : List Nat, tickets.Nodup ∧ Serves tickets t ∧
      ∀ s, Visits trace t s → Before tickets s t := by
  obtain ⟨L, hrecords, hbefore⟩ := exists_records hrun
  exact ⟨L.served, L.served_nodup, hrecords.served, hbefore⟩

end WaitingLine
