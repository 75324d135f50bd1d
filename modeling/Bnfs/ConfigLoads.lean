import Bnfs.ConfigMemory

/-! Loading and deleting a configuration. A load makes the blocks of the list it leads to, except that a file that cannot be
opened leaves the head of a list to which nothing points any more; deleting a list frees all of its blocks, each once. -/

namespace Bnfs.InMemory

open Commands Memory Tailq

/-- The calls of the handler from the n-th one on, as they change the list. -/
def handled (allocs : Nat → Allocs) (n : Nat) (calls : List ConfCall) (cfg : List ErrinjConf) : List ErrinjConf :=
  (calls.zipIdx n).foldl (fun cfg call => (Bnfs.confOptionHandler (allocs call.2) cfg call.1).2) cfg

theorem handled_cons (allocs : Nat → Allocs) (n : Nat) (call : ConfCall) (rest : List ConfCall)
    (cfg : List ErrinjConf) : handled allocs n (call :: rest) cfg =
      handled allocs (n + 1) rest (Bnfs.confOptionHandler (allocs n) cfg call).2 := by
  rw [handled, List.zipIdx_cons, List.foldl_cons, handled]

theorem spec_handleAll (allocs : Nat → Allocs) (head : Nat) (calls : List ConfCall) {turns : Nat}
    (hturns : errinjTypes.length < turns) (n : Nat) {ps : List Placed} (h : DistinctTypes (ps.map Placed.conf)) :
    Spec (placed head ps) (handleAll turns allocs head n calls) fun _ m => ∃ ps' : List Placed,
      ps'.map Placed.conf = handled allocs n calls (ps.map Placed.conf) ∧ m = placed head ps' := by
  induction calls generalizing n ps with
  | nil => exact Spec.pure ⟨ps, rfl, rfl⟩
  | cons call rest ih =>
      have hlength : ps.length < turns := by
        have hle := h.length_le
        rw [List.length_map] at hle
        omega
      refine Spec.bind_all (spec_handler (allocs n) call head hlength) ?_
      rintro rc _ ⟨ps', hps', rfl⟩
      have heq : ps'.map Placed.conf = (Bnfs.confOptionHandler (allocs n) (ps.map Placed.conf) call).2 :=
        congrArg Prod.snd hps'
      rw [handled_cons, ← heq]
      exact ih (n + 1) (heq ▸ h.handler (allocs n) call)

/-- Heads of empty lists. -/
def heads (lost : Multiset Nat) : Blocks ConfBlock := lost.map fun a => (a, .head none (some (.first a)))

theorem heads_add (lost lost' : Multiset Nat) : heads (lost + lost') = heads lost + heads lost' :=
  Multiset.map_add _ _ _

theorem placed_nil (head : Nat) : placed head [] = heads {head} := by
  simp [placed, queue, openQueue, chain, nextOf, lastLink, heads]

/-- The handler as the parser calls it, with the number of calls made so far. -/
def heapHandler (turns : Nat) (allocs : Nat → Allocs) (errors : Nat) : IniHandler (Nat × Heap ConfBlock) :=
  fun user section_name name value =>
    ((confOptionHandler turns (allocs user.1) errors (confCall ⟨section_name, name, value⟩)).run exec user.2).map fun r =>
      (r.1, user.1 + 1, r.2)

/-- The parser, let loose on a heap, does what the calls of the file do, and faults if one of them does. -/
theorem iniParse_heap {line : Bytes} (hline : line.length = INI_MAX_LINE) (turns : Nat) (allocs : Nat → Allocs)
    (errors : Nat) (file : Bytes) (h : Heap ConfBlock) :
    (iniParse (heapHandler turns allocs errors) line (some file) (0, h)).map (fun r => r.2.2) =
      ((handleAll turns allocs errors 0 (fileCalls file)).run exec h).map Prod.snd := by
  rw [iniParse, iniParseFile_eq _ hline, fileCalls, iniCalls]
  generalize meaning file = events, (0 : Int) = error, (0 : Nat) = n
  induction events generalizing error n h with
  | nil => rfl
  | cons event rest ih =>
      obtain ⟨lineno, event⟩ := event
      rw [List.foldlM_cons]
      cases event with
      | quiet => exact ih h error n
      | malformed => exact ih h _ n
      | call c =>
          have hcalls : (((lineno, IniEvent.call c) :: rest).filterMap fun event => event.2.call?) =
              c :: rest.filterMap fun event => event.2.call? := rfl
          rw [hcalls, List.map_cons, handleAll, run_bind, settle]
          unfold heapHandler
          cases hrun : (confOptionHandler turns (allocs n) errors (confCall c)).run exec h with
          | none => simp [hrun]
          | some r =>
              simp only [hrun, Option.map_some, Option.bind_some]
              exact ih r.2 _ (n + 1)

/-- From the bytes of the file to the blocks: the parser on its arrays and the handler on the heap run to the end of any
file, and the list in memory is then what the calls of the file make of the one that was there. -/
theorem file_parsed_into_heap {line : Bytes} (hline : line.length = INI_MAX_LINE) {turns : Nat}
    (hturns : errinjTypes.length < turns) (allocs : Nat → Allocs) (file : Bytes) {head : Nat} {ps : List Placed}
    (h : DistinctTypes (ps.map Placed.conf)) {rest : Blocks ConfBlock} {heap : Heap ConfBlock}
    (howns : Owns heap (placed head ps + rest)) : ∃ (code : Int) (n : Nat) (heap' : Heap ConfBlock) (ps' : List Placed),
      iniParse (heapHandler turns allocs head) line (some file) (0, heap) = some (code, n, heap') ∧
        ps'.map Placed.conf = handled allocs 0 (fileCalls file) (ps.map Placed.conf) ∧
        Owns heap' (placed head ps' + rest) := by
  obtain ⟨_, heap', _, hrun, ⟨ps', hps', rfl⟩, howns'⟩ :=
    spec_handleAll allocs head (fileCalls file) hturns 0 h heap rest howns
  have hparse := iniParse_heap hline turns allocs head file heap
  rw [hrun, Option.map_some] at hparse
  obtain ⟨⟨code, n, heap''⟩, hsome, rfl⟩ := Option.map_eq_some_iff.mp hparse
  exact ⟨code, n, _, ps', hsome, hps', howns'⟩

/-- A head in an otherwise empty heap. -/
theorem owns_head : Owns ((Heap.empty : Heap ConfBlock).put 0 (some (.head none (some (.first 0))))) (placed 0 []) := by
  have hput := owns_empty.put (a := 0) rfl (Block.head none (some (.first 0)) : ConfBlock)
  rwa [placed_nil, heads]

theorem file_parsed_into_heap_sample : ∃ (code : Int) (n : Nat) (heap : Heap ConfBlock) (ps : List Placed),
    iniParse (heapHandler 7 (fun _ => ⟨true, true⟩) 0) (List.replicate 200 77)
        (some (ascii "[errinj_noop]\nprobability = 100\nprobability = 7\n"))
        (0, (Heap.empty : Heap ConfBlock).put 0 (some (.head none (some (.first 0))))) = some (code, n, heap) ∧
      ps.map Placed.conf = [⟨none, none, 7, 0, .noop⟩] ∧ Owns heap (placed 0 ps + 0) := by
  obtain ⟨code, n, heap, ps, hparse, hps, howns⟩ := file_parsed_into_heap
    (show (List.replicate 200 (77 : UInt8)).length = INI_MAX_LINE from rfl) (show errinjTypes.length < 7 by decide)
    (fun _ => ⟨true, true⟩) (ascii "[errinj_noop]\nprobability = 100\nprobability = 7\n")
    (show DistinctTypes (([] : List Placed).map Placed.conf) from List.nodup_nil)
    (show Owns _ (placed 0 [] + 0) by rw [add_zero]; exact owns_head)
  exact ⟨code, n, heap, ps, hparse, hps.trans (by decide +kernel), howns⟩

/-- A list that there may be, by the address of its head and its entries. -/
abbrev Loaded := Option (Nat × List Placed)

namespace Loaded

def pointer (l : Loaded) : Option Nat := l.map Prod.fst

def errors (l : Loaded) : Option (List ErrinjConf) := l.map fun list => list.2.map Placed.conf

def blocks : Loaded → Blocks ConfBlock
  | none => 0
  | some (head, ps) => placed head ps

end Loaded

/-- A load allocates a head it does not return: the file is there and cannot be opened. -/
def Load.leaks (load : Load) : Nat :=
  if load.calloc = true ∧ load.file_exists = true ∧ load.file = none then 1 else 0

theorem spec_configInit {turns : Nat} (hturns : errinjTypes.length < turns) (load : Load) :
    Spec 0 (configInit turns load) fun r m => ∃ (l : Loaded) (lost : Multiset Nat), r = l.pointer ∧
      l.errors = load.configured ∧ lost.card = load.leaks ∧ m = l.blocks + heads lost := by
  unfold configInit Load.leaks Load.configured Bnfs.configInit Load.parsed
  by_cases hcalloc : load.calloc = false
  · rw [if_pos hcalloc, if_pos hcalloc, hcalloc]
    exact Spec.pure ⟨none, 0, rfl, rfl, rfl, rfl⟩
  · rw [if_neg hcalloc, if_neg hcalloc, eq_true_of_ne_false hcalloc]
    refine Spec.bind_alloc fun head => ?_
    refine Spec.bind_all ((spec_init head none none).of_eq (add_zero _)) ?_
    rintro _ _ rfl
    have hempty : queue head [] = placed head [] := (add_zero _).symm
    rw [hempty]
    by_cases hexists : load.file_exists = true
    · rw [if_pos hexists, hexists]
      cases hfile : load.file with
      | none => exact Spec.pure ⟨none, {head}, rfl, rfl, rfl, by rw [placed_nil]; exact (zero_add _).symm⟩
      | some file =>
          refine Spec.bind_all (spec_handleAll load.allocs head (fileCalls file) hturns 0
            (show DistinctTypes (([] : List Placed).map Placed.conf) from List.nodup_nil)) ?_
          rintro _ _ ⟨ps, hps, rfl⟩
          refine Spec.pure ⟨some (head, ps), 0, rfl, ?_, rfl, (add_zero _).symm⟩
          simp [Loaded.errors, hps, handled, List.foldl_map]
    · rw [if_neg hexists]
      refine Spec.pure ⟨some (head, []), 0, rfl, ?_, ?_, (add_zero _).symm⟩
      · simp [Loaded.errors, hexists]
      · simp [hexists]

theorem spec_deleteEntries (head : Nat) (ps : List Placed) {turns : Nat} (h : ps.length < turns) :
    Spec (placed head ps) (deleteEntries head turns) fun _ m => m = placed head [] := by
  induction ps generalizing turns with
  | nil =>
      obtain ⟨turns, rfl⟩ : ∃ n, turns = n + 1 := ⟨turns - 1, by simp only [List.length_nil] at h; omega⟩
      exact Spec.bind_loadAs (mem_head head []) rfl (Spec.pure rfl)
  | cons p rest ih =>
      obtain ⟨turns, rfl⟩ : ∃ n, turns = n + 1 := ⟨turns - 1, by simp only [List.length_cons] at h; omega⟩
      refine Spec.bind_loadAs (mem_head head (p :: rest)) rfl ?_
      refine Spec.bind_loadAs (mem_placed head [] rest p) rfl ?_
      have hblocks : placed head (p :: rest) = stringAt p.path_regexp + (stringAt p.op_regexp +
          (queue head (p.elm :: rest.map Placed.elm) + (rest.map Placed.strings).sum)) := by
        rw [placed, List.map_cons, List.map_cons, List.sum_cons, Placed.strings]
        abel
      refine Spec.of_eq (Spec.bind (spec_freeIfAny p.path_regexp) ?_) hblocks
      rintro _ _ rfl
      rw [zero_add]
      have hmem : (p.addr, block head [] p rest) ∈ queue head (p.elm :: rest.map Placed.elm) :=
        mem_queue head [] (rest.map Placed.elm) p.addr p.entry
      refine Spec.bind_loadAs (b := block head [] p rest) (by simp [hmem]) rfl ?_
      refine Spec.bind (spec_freeIfAny p.op_regexp) ?_
      rintro _ _ rfl
      rw [zero_add]
      refine Spec.bind (spec_remove_first head p.addr p.entry (rest.map Placed.elm)) ?_
      rintro _ _ rfl
      refine Spec.bind_free (b := block head [] p rest) (r := placed head rest) ?_ (ih (by simpa using h))
      rw [placed, block, List.map_nil]
      abel

theorem spec_configDelete (l : Loaded) {turns : Nat} (h : ∀ list ∈ l, list.2.length < turns) :
    Spec l.blocks (configDelete turns l.pointer) fun _ m => m = 0 := by
  cases l with
  | none => exact Spec.pure rfl
  | some list =>
      obtain ⟨head, ps⟩ := list
      refine Spec.bind_all (spec_deleteEntries head ps (h _ rfl)) ?_
      rintro _ _ rfl
      refine Spec.free (b := .head none (some (.first head))) (r := 0) ?_ rfl
      rw [placed_nil, add_zero]
      rfl

/-- A list whose types are distinct can be deleted in these turns. -/
theorem Loaded.length_lt {l : Loaded} {turns : Nat} (hturns : errinjTypes.length < turns)
    (h : ∀ cfg ∈ l.errors, DistinctTypes cfg) : ∀ list ∈ l, list.2.length < turns := by
  rintro ⟨head, ps⟩ hlist
  have hle := (h (ps.map Placed.conf) (by rw [Loaded.errors, Option.mem_def.mp hlist]; rfl)).length_le
  rw [List.length_map] at hle
  exact lt_of_le_of_lt hle hturns

end Bnfs.InMemory
