import Bnfs.ModelConfigMemory

/-! The configuration in memory stands for the list of entries: what each function does to the blocks is what it does to
the list, and it uses no other blocks than those of the list it is given. -/

namespace Bnfs.InMemory

open Commands Memory Tailq

/-- An entry with the address of its block and those of its strings. -/
structure Placed where
  addr : Nat
  op_regexp : Option (Nat × Bytes)
  path_regexp : Option (Nat × Bytes)
  probability : Nat
  duration : Nat
  type : ErrinjType

namespace Placed

def entry (p : Placed) : Entry :=
  ⟨p.op_regexp.map Prod.fst, p.path_regexp.map Prod.fst, p.probability, p.duration, p.type⟩

def conf (p : Placed) : ErrinjConf :=
  ⟨p.op_regexp.map Prod.snd, p.path_regexp.map Prod.snd, p.probability, p.duration, p.type⟩

/-- The entry as an element of the queue. -/
def elm (p : Placed) : Nat × Entry := (p.addr, p.entry)

end Placed

/-- A string that a pointer may point to. -/
def stringAt : Option (Nat × Bytes) → Blocks ConfBlock
  | none => 0
  | some (a, s) => {(a, .other (.string s))}

def Placed.strings (p : Placed) : Blocks ConfBlock := stringAt p.path_regexp + stringAt p.op_regexp

/-- The blocks of a list. -/
def placed (head : Nat) (ps : List Placed) : Blocks ConfBlock :=
  queue head (ps.map Placed.elm) + (ps.map Placed.strings).sum

/-- All blocks of a list but those of one entry. -/
def besides (head : Nat) (front : List Placed) (a : Nat) (back : List Placed) : Blocks ConfBlock :=
  around head (front.map Placed.elm) a (back.map Placed.elm) + (front.map Placed.strings).sum +
    (back.map Placed.strings).sum

/-- The block of an entry. -/
def block (head : Nat) (front : List Placed) (p : Placed) (back : List Placed) : ConfBlock :=
  elmBlock head (front.map Placed.elm) p.entry (back.map Placed.elm)

section Split

variable (head : Nat) (front back : List Placed) (p : Placed)

theorem placed_split : placed head (front ++ p :: back) =
    {(p.addr, block head front p back)} + p.strings + besides head front p.addr back := by
  rw [placed, List.map_append, List.map_append, List.map_cons, List.map_cons, List.sum_append, List.sum_cons,
    Placed.elm, queue_split, besides, block]
  abel

theorem mem_placed : (p.addr, block head front p back) ∈ placed head (front ++ p :: back) := by
  rw [placed_split]
  simp

end Split

/-- Freeing what a field points to, if it points to anything. -/
theorem spec_freeIfAny (s : Option (Nat × Bytes)) : Spec (stringAt s) (freeIfAny (s.map Prod.fst)) fun _ m => m = 0 := by
  cases s with
  | none => exact Spec.pure rfl
  | some s => exact Spec.free (add_zero _).symm rfl

theorem spec_strdup (alloc : Allocs) (value : CString) : Spec 0 (strdup alloc value) fun copy m =>
    ∃ s, copy = s.map Prod.fst ∧ s.map Prod.snd = alloc.copy value ∧ m = stringAt s := by
  unfold strdup
  by_cases hstrdup : alloc.strdup = true
  · rw [if_pos hstrdup]
    refine Spec.bind_alloc fun a => Spec.pure ⟨some (a, value.bytes), rfl, ?_, add_zero _⟩
    rw [Allocs.copy, if_pos hstrdup]
    rfl
  · rw [if_neg hstrdup]
    refine Spec.pure ⟨none, rfl, ?_, rfl⟩
    rw [Allocs.copy, if_neg hstrdup]
    rfl

section Options

variable (alloc : Allocs) (key value : CString) (head : Nat) (front back : List Placed) (p : Placed)

theorem spec_setPathRegexp : Spec (placed head (front ++ p :: back)) (setPathRegexp alloc value p.addr) fun _ m =>
    ∃ s, s.map Prod.snd = alloc.copy value ∧ m = placed head (front ++ { p with path_regexp := s } :: back) := by
  refine Spec.bind_loadAs (mem_placed head front back p) rfl ?_
  refine Spec.of_eq (Spec.bind (r := {(p.addr, block head front p back)} + stringAt p.op_regexp +
    besides head front p.addr back) (spec_freeIfAny p.path_regexp) ?_) ?_
  · rintro _ _ rfl
    refine Spec.bind (spec_strdup alloc value) ?_
    rintro _ _ ⟨s, rfl, hcopy, rfl⟩
    refine Spec.assign (a := p.addr) (b := block head front p back)
      (r := stringAt s + stringAt p.op_regexp + besides head front p.addr back) (by abel) rfl ⟨s, hcopy, ?_⟩
    rw [placed_split]
    simp only [Placed.strings, block, elmBlock, Placed.entry]
    abel
  · rw [placed_split, Placed.strings]
    abel

theorem spec_setOpRegexp : Spec (placed head (front ++ p :: back)) (setOpRegexp alloc value p.addr) fun _ m =>
    ∃ s, s.map Prod.snd = alloc.copy value ∧ m = placed head (front ++ { p with op_regexp := s } :: back) := by
  refine Spec.bind_loadAs (mem_placed head front back p) rfl ?_
  refine Spec.of_eq (Spec.bind (r := {(p.addr, block head front p back)} + stringAt p.path_regexp +
    besides head front p.addr back) (spec_freeIfAny p.op_regexp) ?_) ?_
  · rintro _ _ rfl
    refine Spec.bind (spec_strdup alloc value) ?_
    rintro _ _ ⟨s, rfl, hcopy, rfl⟩
    refine Spec.assign (a := p.addr) (b := block head front p back)
      (r := stringAt s + stringAt p.path_regexp + besides head front p.addr back) (by abel) rfl ⟨s, hcopy, ?_⟩
    rw [placed_split]
    simp only [Placed.strings, block, elmBlock, Placed.entry]
    abel
  · rw [placed_split, Placed.strings]
    abel

/-- A number of the entry is set. -/
theorem spec_setNumber {change : Entry → Entry} (p' : Placed) (haddr : p'.addr = p.addr)
    (hentry : p'.entry = change p.entry) (hstrings : p'.strings = p.strings) :
    Spec (placed head (front ++ p :: back)) (assign (setField change) p.addr) fun _ m =>
      m = placed head (front ++ p' :: back) := by
  refine Spec.assign (r := p.strings + besides head front p.addr back)
    (by rw [placed_split, add_assoc]) rfl ?_
  rw [placed_split, haddr, hstrings, block, elmBlock, hentry, add_assoc]

/-- The entry becomes what the list-level function makes of it. -/
theorem spec_setOption : Spec (placed head (front ++ p :: back)) (setOption alloc key value p.addr) fun rc m =>
    ∃ p' : Placed, (rc, p'.conf) = Bnfs.setOption alloc key value p.conf ∧ m = placed head (front ++ p' :: back) := by
  unfold setOption Bnfs.setOption
  split_ifs
  · refine Spec.bind_all (spec_setPathRegexp alloc value head front back p) ?_
    rintro _ _ ⟨s, hcopy, rfl⟩
    exact Spec.pure ⟨_, by simp only [Placed.conf, hcopy], rfl⟩
  · refine Spec.bind_all (spec_setOpRegexp alloc value head front back p) ?_
    rintro _ _ ⟨s, hcopy, rfl⟩
    exact Spec.pure ⟨_, by simp only [Placed.conf, hcopy], rfl⟩
  · refine Spec.bind_all (spec_setNumber head front back p
      { p with probability := toUnsigned (atoi value.bytes) } rfl rfl rfl) ?_
    rintro _ _ rfl
    exact Spec.pure ⟨_, rfl, rfl⟩
  · refine Spec.bind_all (spec_setNumber head front back p
      { p with duration := toUnsigned (atoi value.bytes) } rfl rfl rfl) ?_
    rintro _ _ rfl
    exact Spec.pure ⟨_, rfl, rfl⟩
  · exact Spec.pure ⟨p, rfl, rfl⟩

end Options

theorem spec_findEntry (cur_type : ErrinjType) (head : Nat) (front back : List Placed) {turns : Nat}
    (h : back.length < turns) :
    Spec (placed head (front ++ back)) (findEntry cur_type turns (nextOf (back.map Placed.elm) none)) fun r m =>
      r = (back.find? fun p => p.type = cur_type).map Placed.addr ∧ m = placed head (front ++ back) := by
  induction back generalizing front turns with
  | nil =>
      obtain ⟨turns, rfl⟩ : ∃ n, turns = n + 1 := ⟨turns - 1, by simp only [List.length_nil] at h; omega⟩
      exact Spec.pure ⟨rfl, rfl⟩
  | cons p back ih =>
      obtain ⟨turns, rfl⟩ : ∃ n, turns = n + 1 := ⟨turns - 1, by simp only [List.length_cons] at h; omega⟩
      refine Spec.bind_loadAs (mem_placed head front back p) rfl ?_
      rw [List.find?_cons]
      by_cases htype : p.type = cur_type
      · rw [if_pos (show p.entry.type = cur_type from htype)]
        simp only [htype, decide_true]
        exact Spec.pure ⟨rfl, rfl⟩
      · rw [if_neg (show ¬ p.entry.type = cur_type from htype)]
        simp only [htype, decide_false]
        refine Spec.bind_loadAs (mem_placed head front back p) rfl ?_
        have hback := ih (front ++ [p]) (show back.length < turns by simpa using h)
        rwa [List.append_assoc] at hback

/-- The handler on a list that has an entry of the type. -/
theorem handler_at {cur_type : ErrinjType} {call : ConfCall}
    (htype : errinjTypeByName call.section_name.bytes = some cur_type) (alloc : Allocs) {front back : List ErrinjConf}
    {err : ErrinjConf} (hfront : ∀ np ∈ front, np.type ≠ cur_type) (herr : err.type = cur_type) :
    Bnfs.confOptionHandler alloc (front ++ err :: back) call =
      ((Bnfs.setOption alloc call.key call.value err).1,
        front ++ (Bnfs.setOption alloc call.key call.value err).2 :: back) := by
  have hfound : (front ++ err :: back).findIdx? (fun np => np.type = cur_type) = some front.length := by
    rw [List.findIdx?_append, List.findIdx?_eq_none_iff.mpr fun np hnp => decide_eq_false (hfront np hnp),
      List.findIdx?_cons]
    simp [herr]
  rw [handler_found htype hfound]
  rw [List.modify_eq_take_cons_drop (by simp)]
  simp

theorem mem_head (head : Nat) (ps : List Placed) :
    (head, .head (nextOf (ps.map Placed.elm) none) (some (lastLink (.first head) (ps.map Placed.elm)))) ∈
      placed head ps := by
  simp [placed, queue, openQueue]

/-- A new entry is put at the end of the list. -/
theorem spec_insert (head a : Nat) (type : ErrinjType) (next : Option Nat) (prev : Option Link) (ps : List Placed) :
    Spec ({(a, .elm next prev { Entry.zero with type })} + placed head ps) (tailqInsertTail head a) fun _ m =>
      m = placed head (ps ++ [⟨a, none, none, 0, 0, type⟩]) := by
  have hinsert := (spec_insert_tail (R := Data) head a (ps.map Placed.elm) { Entry.zero with type } next prev).frame (ps.map Placed.strings).sum
  refine (hinsert.of_eq (by rw [placed]; abel)).mono ?_
  rintro _ _ ⟨_, rfl, rfl⟩
  rw [placed, List.map_append, List.map_append, List.sum_append]
  simp [Placed.elm, Placed.entry, Placed.strings, stringAt, Entry.zero]

/-- The handler does to the blocks what it does to the list. -/
theorem spec_handler (alloc : Allocs) (call : ConfCall) (head : Nat) {ps : List Placed} {turns : Nat}
    (h : ps.length < turns) :
    Spec (placed head ps) (confOptionHandler turns alloc head call) fun rc m => ∃ ps' : List Placed,
      (rc, ps'.map Placed.conf) = Bnfs.confOptionHandler alloc (ps.map Placed.conf) call ∧ m = placed head ps' := by
  unfold confOptionHandler
  cases htype : errinjTypeByName call.section_name.bytes with
  | none => exact Spec.pure ⟨ps, by rw [handler_unknown htype], rfl⟩
  | some cur_type =>
      refine Spec.bind_loadAs (mem_head head ps) rfl (Spec.bind_all (spec_findEntry cur_type head [] ps h) ?_)
      rintro _ _ ⟨rfl, rfl⟩
      rw [List.nil_append]
      cases hfind : ps.find? fun p => p.type = cur_type with
      | some p =>
          obtain ⟨hp, front, back, rfl, hfront⟩ := List.find?_eq_some_iff_append.mp hfind
          refine (spec_setOption alloc call.key call.value head front back p).mono ?_
          rintro rc _ ⟨p', hp', rfl⟩
          refine ⟨_, ?_, rfl⟩
          rw [List.map_append, List.map_cons, List.map_append, List.map_cons,
            handler_at htype alloc (fun np hnp => ?_) (of_decide_eq_true hp), ← hp']
          obtain ⟨q, hq, rfl⟩ := List.mem_map.mp hnp
          exact fun heq => by simpa [show q.type = cur_type from heq] using hfront q hq
      | none =>
          have hnone : (ps.map Placed.conf).findIdx? (fun np => np.type = cur_type) = none := by
            refine List.findIdx?_eq_none_iff.mpr fun np hnp => ?_
            obtain ⟨q, hq, rfl⟩ := List.mem_map.mp hnp
            exact decide_eq_false fun heq => List.find?_eq_none.mp hfind q hq (decide_eq_true heq)
          cases hcalloc : alloc.calloc with
          | false => exact Spec.pure ⟨ps, by rw [handler_out_of_memory htype hnone hcalloc], rfl⟩
          | true =>
              refine Spec.bind_alloc fun a => Spec.bind_assign rfl rfl ?_
              refine Spec.bind_all (spec_insert head a cur_type none none ps) ?_
              rintro _ _ rfl
              refine (spec_setOption alloc call.key call.value head ps [] _).mono ?_
              rintro rc _ ⟨p', hp', rfl⟩
              refine ⟨_, ?_, rfl⟩
              have hset : Bnfs.setOption alloc call.key call.value (.zeroed cur_type) = (rc, p'.conf) := hp'.symm
              rw [handler_created htype hnone hcalloc, hset, List.map_append, List.map_singleton]

/-- No two entries of one type. There are at most as many as types then. -/
def DistinctTypes (cfg : List ErrinjConf) : Prop := (cfg.map ErrinjConf.type).Nodup

theorem DistinctTypes.length_le {cfg : List ErrinjConf} (h : DistinctTypes cfg) : cfg.length ≤ errinjTypes.length := by
  have hsub : cfg.map ErrinjConf.type ⊆ errinjTypes := fun type _ => by cases type <;> simp [errinjTypes]
  simpa using (h.subperm hsub).length_le

/-- The types stay, or a new one comes after them. -/
theorem handler_types (alloc : Allocs) (cfg : List ErrinjConf) (call : ConfCall) :
    (Bnfs.confOptionHandler alloc cfg call).2.map ErrinjConf.type = cfg.map ErrinjConf.type ∨
      ∃ type ∉ cfg.map ErrinjConf.type,
        (Bnfs.confOptionHandler alloc cfg call).2.map ErrinjConf.type = cfg.map ErrinjConf.type ++ [type] := by
  cases htype : errinjTypeByName call.section_name.bytes with
  | none =>
      rw [handler_unknown htype]
      exact Or.inl rfl
  | some cur_type =>
      cases hfound : cfg.findIdx? fun np => np.type = cur_type with
      | some i =>
          rw [handler_found htype hfound]
          refine Or.inl (List.ext_getElem? fun k => ?_)
          rw [List.getElem?_map, List.getElem?_map, List.getElem?_modify]
          cases cfg[k]? with
          | none => rfl
          | some err => by_cases hk : i = k <;> simp [hk, setOption_type]
      | none =>
          cases hcalloc : alloc.calloc with
          | false =>
              rw [handler_out_of_memory htype hfound hcalloc]
              exact Or.inl rfl
          | true =>
              rw [handler_created htype hfound hcalloc]
              refine Or.inr ⟨cur_type, fun hmem => ?_, by simp [setOption_type, ErrinjConf.zeroed]⟩
              obtain ⟨err, herr, heq⟩ := List.mem_map.mp hmem
              exact of_decide_eq_false (List.findIdx?_eq_none_iff.mp hfound err herr) heq

theorem DistinctTypes.handler {cfg : List ErrinjConf} (h : DistinctTypes cfg) (alloc : Allocs) (call : ConfCall) :
    DistinctTypes (Bnfs.confOptionHandler alloc cfg call).2 := by
  unfold DistinctTypes
  obtain heq | ⟨type, hnew, heq⟩ := handler_types alloc cfg call
  · rwa [heq]
  · rw [heq]
    exact List.Nodup.append h (List.nodup_singleton type) (by simpa using hnew)

/-- The outcomes of the allocations with the calls they belong to. -/
def Load.parsed (load : Load) : Option (List (Allocs × ConfCall)) :=
  load.file.map fun file => ((fileCalls file).zipIdx).map fun call => (load.allocs call.2, call.1)

/-- What the load leads to, as a list. -/
def Load.configured (load : Load) : Option (List ErrinjConf) :=
  Bnfs.configInit load.calloc load.file_exists load.parsed

theorem Load.distinct (load : Load) {cfg : List ErrinjConf} (h : load.configured = some cfg) : DistinctTypes cfg := by
  have hfold : ∀ (calls : List (Allocs × ConfCall)) (cfg : List ErrinjConf), DistinctTypes cfg →
      DistinctTypes (calls.foldl (fun cfg call => (Bnfs.confOptionHandler call.1 cfg call.2).2) cfg) := by
    intro calls
    induction calls with
    | nil => exact fun _ hcfg => hcfg
    | cons call rest ih => exact fun cfg hcfg => ih _ (hcfg.handler call.1 call.2)
  unfold Load.configured Bnfs.configInit at h
  split_ifs at h with hcalloc hexists
  · cases h
    exact List.nodup_nil
  · obtain ⟨calls, _, rfl⟩ := Option.map_eq_some_iff.mp h
    exact hfold calls [] List.nodup_nil

end Bnfs.InMemory
