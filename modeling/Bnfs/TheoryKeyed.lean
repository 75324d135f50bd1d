import Mathlib.Data.List.Nodup
import Mathlib.Data.List.Induction

/-! Lists of entries under keys, built by calls that each name a key. A call changes the first entry of its key where it
stands; a call for a key that has none puts a fresh entry at the end and changes that. Whatever the calls, there is one
entry for each key called for, in the order of the first calls, and it is what the calls for its key made of a
fresh one. -/

namespace Keyed

section FirstOccurrences

variable {α : Type} [BEq α] [LawfulBEq α]

theorem eraseDups_concat_of_mem {xs : List α} {x : α} (h : x ∈ xs) : (xs ++ [x]).eraseDups = xs.eraseDups := by
  have hnone : [x].removeAll xs = [] := by simpa [List.removeAll] using h
  rw [List.eraseDups_append, hnone, List.eraseDups_nil, List.append_nil]

theorem eraseDups_concat_of_not_mem {xs : List α} {x : α} (h : x ∉ xs) :
    (xs ++ [x]).eraseDups = xs.eraseDups ++ [x] := by
  have hself : [x].removeAll xs = [x] := by simpa [List.removeAll] using h
  rw [List.eraseDups_append, hself]
  rfl

/-- Different elements stay different under an injective map. -/
theorem map_eraseDups {β : Type} [BEq β] [LawfulBEq β] {f : α → β} (hf : Function.Injective f) (xs : List α) :
    xs.eraseDups.map f = (xs.map f).eraseDups := by
  induction xs using List.reverseRecOn with
  | nil => rfl
  | append_singleton xs x ih =>
      rw [List.map_append, List.map_singleton]
      by_cases h : x ∈ xs
      · rw [eraseDups_concat_of_mem h, eraseDups_concat_of_mem (List.mem_map_of_mem h), ih]
      · have himage : f x ∉ xs.map f := fun hmem => h ((List.mem_map_of_injective hf).mp hmem)
        rw [eraseDups_concat_of_not_mem h, eraseDups_concat_of_not_mem himage, List.map_append, ih, List.map_singleton]

theorem nodup_eraseDups (xs : List α) : xs.eraseDups.Nodup := by
  induction xs using List.reverseRecOn with
  | nil => exact List.nodup_nil
  | append_singleton xs x ih =>
      by_cases h : x ∈ xs
      · rw [eraseDups_concat_of_mem h]
        exact ih
      · rw [eraseDups_concat_of_not_mem h]
        refine List.nodup_append'.mpr ⟨ih, List.nodup_singleton x, ?_⟩
        exact List.disjoint_singleton.mpr fun hmem => h (List.mem_eraseDups.mp hmem)

end FirstOccurrences

/-- Entries and the calls that make them. A call does not change the key of an entry. -/
structure Table (Key Entry Call : Type) where
  keyOf : Entry → Key
  fresh : Key → Entry
  target : Call → Key
  change : Call → Entry → Entry
  keyOf_fresh : ∀ key, keyOf (fresh key) = key
  keyOf_change : ∀ call entry, keyOf (change call entry) = keyOf entry

namespace Table

variable {Key Entry Call : Type} [DecidableEq Key] (T : Table Key Entry Call)

def step (call : Call) : List Entry → List Entry
  | [] => [T.change call (T.fresh (T.target call))]
  | entry :: rest =>
      if T.keyOf entry = T.target call then T.change call entry :: rest else entry :: step call rest

/-- The same with the place of the entry looked up first. -/
theorem step_eq_findIdx (call : Call) (entries : List Entry) : T.step call entries =
    match entries.findIdx? fun entry => T.keyOf entry = T.target call with
    | some i => entries.modify i (T.change call)
    | none => entries ++ [T.change call (T.fresh (T.target call))] := by
  induction entries with
  | nil => rfl
  | cons entry rest ih =>
      rw [step, List.findIdx?_cons]
      by_cases h : T.keyOf entry = T.target call
      · simp only [h, if_true, decide_true, List.modify_zero_cons]
      · rw [if_neg h, ih]
        simp only [h, decide_false, Bool.false_eq_true, if_false]
        cases rest.findIdx? fun entry => T.keyOf entry = T.target call with
        | none => rfl
        | some i => exact (List.modify_succ_cons _ _ _ _).symm

/-- The entries of other keys stay as they are, and where they are. -/
theorem step_getElem?_of_ne {call : Call} {entries : List Entry} {i : Nat} {entry : Entry}
    (hget : entries[i]? = some entry) (hne : T.keyOf entry ≠ T.target call) :
    (T.step call entries)[i]? = some entry := by
  induction entries generalizing i with
  | nil => cases hget
  | cons first rest ih =>
      rw [step]
      cases i with
      | zero =>
          obtain rfl : first = entry := Option.some.inj hget
          rw [if_neg hne]
          rfl
      | succ i =>
          split_ifs
          · exact hget
          · exact ih hget

/-- A call does not look at the entries before those of its key. -/
theorem step_append {call : Call} {front : List Entry} (h : ∀ entry ∈ front, T.keyOf entry ≠ T.target call)
    (entries : List Entry) : T.step call (front ++ entries) = front ++ T.step call entries := by
  induction front with
  | nil => rfl
  | cons entry front ih =>
      rw [List.cons_append, step, if_neg (h entry List.mem_cons_self),
        ih fun e he => h e (List.mem_cons_of_mem _ he), List.cons_append]

/-- Calls for a new key, one after another, make one entry. -/
theorem foldl_step_block {key : Key} {front : List Entry} (hfront : ∀ entry ∈ front, T.keyOf entry ≠ key)
    {calls : List Call} (hcalls : ∀ call ∈ calls, T.target call = key) (hne : calls ≠ []) :
    calls.foldl (fun entries call => T.step call entries) front =
      front ++ [calls.foldl (fun entry call => T.change call entry) (T.fresh key)] := by
  have hmore : ∀ (calls : List Call), (∀ call ∈ calls, T.target call = key) → ∀ entry, T.keyOf entry = key →
      calls.foldl (fun entries call => T.step call entries) (front ++ [entry]) =
        front ++ [calls.foldl (fun entry call => T.change call entry) entry] := by
    intro calls
    induction calls with
    | nil => exact fun _ _ _ => rfl
    | cons call rest ih =>
        intro hcalls entry hentry
        have htarget := hcalls call List.mem_cons_self
        rw [List.foldl_cons, List.foldl_cons, step_append T (htarget ▸ hfront), step, if_pos (hentry.trans htarget.symm)]
        exact ih (fun c hc => hcalls c (List.mem_cons_of_mem _ hc)) _ ((T.keyOf_change _ _).trans hentry)
  cases calls with
  | nil => exact absurd rfl hne
  | cons call rest =>
      have htarget := hcalls call List.mem_cons_self
      have hfirst : T.step call front = front ++ [T.change call (T.fresh key)] := by
        have happend := step_append T (htarget ▸ hfront) []
        rwa [List.append_nil, step, htarget] at happend
      rw [List.foldl_cons, List.foldl_cons, hfirst]
      exact hmore rest (fun c hc => hcalls c (List.mem_cons_of_mem _ hc)) _
        ((T.keyOf_change _ _).trans (T.keyOf_fresh key))

section Keys

variable {T} {entryAt : Key → Entry} (hkey : ∀ key, T.keyOf (entryAt key) = key) {keys : List Key} {call : Call}

include hkey

theorem step_map_of_not_mem (h : T.target call ∉ keys) : T.step call (keys.map entryAt) =
    keys.map entryAt ++ [T.change call (T.fresh (T.target call))] := by
  induction keys with
  | nil => rfl
  | cons key rest ih =>
      rw [List.mem_cons, not_or] at h
      rw [List.map_cons, step, hkey, if_neg (Ne.symm h.1), ih h.2]
      rfl

theorem step_map_of_mem (hnodup : keys.Nodup) (h : T.target call ∈ keys) : T.step call (keys.map entryAt) =
    keys.map fun key => if T.target call = key then T.change call (entryAt key) else entryAt key := by
  induction keys with
  | nil => cases h
  | cons key rest ih =>
      obtain ⟨hfirst, hrest⟩ := List.nodup_cons.mp hnodup
      rw [List.map_cons, List.map_cons, step, hkey]
      by_cases heq : key = T.target call
      · rw [if_pos heq, if_pos heq.symm]
        refine congrArg _ (List.map_congr_left fun other hother => ?_)
        have hne : T.target call ≠ other := fun h => hfirst (heq.trans h ▸ hother)
        rw [if_neg hne]
      · rw [if_neg heq, if_neg (Ne.symm heq), ih hrest ((List.mem_cons.mp h).resolve_left (Ne.symm heq))]

end Keys

/-- The entries after a sequence of calls on none. -/
def run (calls : List Call) : List Entry := calls.foldl (fun entries call => T.step call entries) []

/-- What the calls for a key make of a fresh entry. -/
def entryOf (calls : List Call) (key : Key) : Entry :=
  (calls.filter fun call => T.target call = key).foldl (fun entry call => T.change call entry) (T.fresh key)

omit [DecidableEq Key] in
theorem keyOf_foldl (calls : List Call) (entry : Entry) :
    T.keyOf (calls.foldl (fun entry call => T.change call entry) entry) = T.keyOf entry := by
  induction calls generalizing entry with
  | nil => rfl
  | cons call rest ih => rw [List.foldl_cons, ih, T.keyOf_change]

theorem keyOf_entryOf (calls : List Call) (key : Key) : T.keyOf (T.entryOf calls key) = key := by
  rw [entryOf, keyOf_foldl, T.keyOf_fresh]

theorem entryOf_concat (calls : List Call) (call : Call) (key : Key) : T.entryOf (calls ++ [call]) key =
    if T.target call = key then T.change call (T.entryOf calls key) else T.entryOf calls key := by
  unfold entryOf
  rw [List.filter_append, List.foldl_append]
  split_ifs with h
  · simp only [List.filter_cons, h, decide_true, if_true, List.filter_nil, List.foldl_cons, List.foldl_nil]
  · simp only [List.filter_cons, h, decide_false, Bool.false_eq_true, if_false, List.filter_nil, List.foldl_nil]

theorem entryOf_of_not_mem {calls : List Call} {key : Key} (h : key ∉ calls.map T.target) :
    T.entryOf calls key = T.fresh key := by
  have hnone : calls.filter (fun call => T.target call = key) = [] := by
    refine List.filter_eq_nil_iff.mpr fun call hcall => ?_
    simpa using fun heq => h (List.mem_map.mpr ⟨call, hcall, heq⟩)
  rw [entryOf, hnone, List.foldl_nil]

/-- One entry for each key, in the order of the first calls. -/
theorem run_eq (calls : List Call) : T.run calls = (calls.map T.target).eraseDups.map (T.entryOf calls) := by
  induction calls using List.reverseRecOn with
  | nil => rfl
  | append_singleton calls call ih =>
      have hrun : T.run (calls ++ [call]) = T.step call (T.run calls) := by
        rw [run, List.foldl_append]
        rfl
      rw [hrun, ih, List.map_append, List.map_singleton]
      by_cases h : T.target call ∈ calls.map T.target
      · rw [eraseDups_concat_of_mem h, step_map_of_mem (T.keyOf_entryOf calls) (nodup_eraseDups _)
          (List.mem_eraseDups.mpr h)]
        exact List.map_congr_left fun key _ => (T.entryOf_concat calls call key).symm
      · have hnew : T.target call ∉ (calls.map T.target).eraseDups := fun hmem => h (List.mem_eraseDups.mp hmem)
        rw [eraseDups_concat_of_not_mem h, step_map_of_not_mem (T.keyOf_entryOf calls) hnew, List.map_append,
          List.map_singleton, entryOf_concat, if_pos rfl, T.entryOf_of_not_mem h]
        refine congrArg (· ++ _) (List.map_congr_left fun key hkey => ?_)
        have hne : T.target call ≠ key := fun heq => hnew (heq ▸ hkey)
        rw [entryOf_concat, if_neg hne]

theorem keys_run (calls : List Call) : (T.run calls).map T.keyOf = (calls.map T.target).eraseDups := by
  rw [run_eq, List.map_map]
  refine (List.map_congr_left fun key _ => ?_).trans (List.map_id _)
  exact T.keyOf_entryOf calls key

theorem mem_run {calls : List Call} {entry : Entry} (h : entry ∈ T.run calls) :
    entry = T.entryOf calls (T.keyOf entry) := by
  rw [run_eq] at h
  obtain ⟨key, _, rfl⟩ := List.mem_map.mp h
  rw [keyOf_entryOf]

omit [DecidableEq Key] in
/-- A field that each call writes or leaves has the value of the last call that wrote it. -/
theorem field_foldl {α : Type} {field : Entry → α} {written : Call → Option α}
    (h : ∀ call entry, field (T.change call entry) = (written call).getD (field entry)) (calls : List Call)
    (entry : Entry) : field (calls.foldl (fun entry call => T.change call entry) entry) =
      (calls.filterMap written).getLast?.getD (field entry) := by
  induction calls generalizing entry with
  | nil => rfl
  | cons call rest ih =>
      rw [List.foldl_cons, ih, h]
      cases hwritten : written call with
      | none => rw [List.filterMap_cons_none hwritten, Option.getD_none]
      | some value =>
          rw [List.filterMap_cons_some hwritten, List.getLast?_cons, Option.getD_some, Option.getD_some]

end Table

end Keyed
