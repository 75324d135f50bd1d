import Bnfs.ConfigLoads
import Bnfs.InjectDraws
import Bnfs.TheoryLocked

/-! Threads that call `error_inject`. Each works on the configuration block by block while it holds the mutex, and any other
may come in between. -/

namespace Bnfs.InMemory

open Commands Memory Tailq

variable [PosixRegex]

omit [PosixRegex] in
theorem spec_loadString (s : Option (Nat × Bytes)) (rest : Blocks ConfBlock) :
    Spec (stringAt s + rest) (loadString (s.map Prod.fst)) fun r m => r = s.map Prod.snd ∧ m = stringAt s + rest := by
  cases s with
  | none => exact Spec.pure ⟨rfl, rfl⟩
  | some s =>
      refine Spec.bind_loadAs (b := .other (.string s.2)) (by simp [stringAt]) rfl ?_
      exact Spec.pure ⟨rfl, rfl⟩

section Entries

variable (draws : Draws) (path : Bytes) (op : FuseOp) (head : Nat)

theorem spec_injectEntry (front back : List Placed) (p : Placed) (k : Nat) (rc : Int) :
    Spec (placed head (front ++ p :: back)) (injectEntry draws path op k p.addr rc) fun r m =>
      r = (if p.conf.triggered (draws.chance k) path op then
        p.type.apply (opRandomErrno draws.past (draws.choice k) op) rc else rc) ∧
      m = placed head (front ++ p :: back) := by
  have hmem := mem_placed head front back p
  have hpath : placed head (front ++ p :: back) = stringAt p.path_regexp +
      ({(p.addr, block head front p back)} + stringAt p.op_regexp + besides head front p.addr back) := by
    rw [placed_split, Placed.strings]
    abel
  have hop : placed head (front ++ p :: back) = stringAt p.op_regexp +
      ({(p.addr, block head front p back)} + stringAt p.path_regexp + besides head front p.addr back) := by
    rw [placed_split, Placed.strings]
    abel
  unfold injectEntry
  refine Spec.bind_loadAs hmem rfl ?_
  by_cases hchance : randRange (draws.chance k) MIN_PROBABLITY MAX_PROBABLITY ≤ p.probability
  · rw [if_pos (show _ ≤ p.entry.probability from hchance)]
    refine Spec.bind_loadAs hmem rfl (Spec.bind_all ((spec_loadString p.path_regexp _).of_eq hpath) ?_)
    rintro _ _ ⟨rfl, rfl⟩
    rw [← hpath]
    by_cases hmatched : isRegexMatched (p.path_regexp.map Prod.snd) path = 0
    · rw [if_pos hmatched]
      refine Spec.bind_loadAs hmem rfl (Spec.bind_all ((spec_loadString p.op_regexp _).of_eq hop) ?_)
      rintro _ _ ⟨rfl, rfl⟩
      rw [← hop]
      by_cases hmatched' : isRegexMatched (p.op_regexp.map Prod.snd) op.fuseOpName = 0
      · rw [if_pos hmatched']
        refine Spec.bind_loadAs hmem rfl (Spec.pure ⟨?_, rfl⟩)
        rw [if_pos (by simp [ErrinjConf.triggered, Placed.conf, hchance, hmatched, hmatched'])]
        rfl
      · rw [if_neg hmatched']
        refine Spec.pure ⟨?_, rfl⟩
        rw [if_neg (by simp [ErrinjConf.triggered, Placed.conf, hmatched'])]
    · rw [if_neg hmatched]
      refine Spec.pure ⟨?_, rfl⟩
      rw [if_neg (by simp [ErrinjConf.triggered, Placed.conf, hmatched])]
  · rw [if_neg (show ¬ _ ≤ p.entry.probability from hchance)]
    refine Spec.pure ⟨?_, rfl⟩
    rw [if_neg (by simp [ErrinjConf.triggered, Placed.conf, hchance])]

theorem spec_injectEntries (front back : List Placed) {turns : Nat} (h : back.length < turns) (k : Nat) (rc : Int) :
    Spec (placed head (front ++ back)) (injectEntries draws path op turns k (nextOf (back.map Placed.elm) none) rc)
      fun r m => r = injectAll draws path op k (back.map Placed.conf) rc ∧ m = placed head (front ++ back) := by
  induction back generalizing front turns k rc with
  | nil =>
      obtain ⟨turns, rfl⟩ : ∃ n, turns = n + 1 := ⟨turns - 1, by simp only [List.length_nil] at h; omega⟩
      exact Spec.pure ⟨rfl, rfl⟩
  | cons p back ih =>
      obtain ⟨turns, rfl⟩ : ∃ n, turns = n + 1 := ⟨turns - 1, by simp only [List.length_cons] at h; omega⟩
      refine Spec.bind_all (spec_injectEntry draws path op head front back p k rc) ?_
      rintro _ _ ⟨rfl, rfl⟩
      refine Spec.bind_loadAs (mem_placed head front back p) rfl ?_
      have hback := ih (front ++ [p]) (show back.length < turns by simpa using h) (k + 1)
        (if p.conf.triggered (draws.chance k) path op then
          p.type.apply (opRandomErrno draws.past (draws.choice k) op) rc else rc)
      rw [List.append_assoc] at hback
      exact hback

end Entries

/-- All blocks there are: `conf`, the path of the file, the list and the heads that were lost. -/
def standing (conf at_path : Nat) (path : Bytes) (l : Loaded) (lost : Multiset Nat) : Blocks ConfBlock :=
  {(conf, .other (.config l.pointer (some at_path)))} + {(at_path, .other (.string path))} + l.blocks + heads lost

/-- The configuration as error injection reads it. -/
def Loaded.config (l : Loaded) (path : Bytes) : UnreliablefsConfig := ⟨l.errors, path⟩

/-- A call of `error_inject` on the list. -/
def answer (conf : UnreliablefsConfig) (call : Call) : Int × UnreliablefsConfig :=
  Bnfs.errorInject call.load.configured conf call.draws call.path call.operation

/-- The heads that a call loses. -/
def Call.leaks (call : Call) (path : Bytes) : Nat := if call.path = path then call.load.leaks else 0

section Calls

variable {turns conf at_path : Nat} {path : Bytes} {l : Loaded} {lost : Multiset Nat}

/-- A call does to the blocks what it does to the list. -/
theorem spec_errorInject (hturns : errinjTypes.length < turns) (h : ∀ cfg ∈ l.errors, DistinctTypes cfg)
    (call : Call) : Spec (standing conf at_path path l lost) (errorInject turns conf call) fun rc m =>
      ∃ (l' : Loaded) (lost' : Multiset Nat), (rc, l'.config path) = answer (l.config path) call ∧
        (∀ cfg ∈ l'.errors, DistinctTypes cfg) ∧ lost'.card = lost.card + call.leaks path ∧
        m = standing conf at_path path l' lost' := by
  have hconf : (conf, .other (.config l.pointer (some at_path))) ∈ standing conf at_path path l lost := by
    simp [standing]
  unfold errorInject answer Bnfs.errorInject Call.leaks
  refine Spec.bind_loadAs hconf rfl ?_
  refine Spec.bind_loadAs (b := .other (.string path)) (by simp [standing]) rfl ?_
  by_cases hpath : call.path = path
  · rw [if_pos hpath, if_pos (show _ = (l.config path).configPath from hpath), if_pos hpath]
    refine Spec.bind_loadAs hconf rfl ?_
    refine Spec.of_eq (Spec.bind (r := {(conf, .other (.config l.pointer (some at_path)))} +
      {(at_path, .other (.string path))} + heads lost) (spec_configDelete l (Loaded.length_lt hturns h)) ?_) ?_
    · rintro _ _ rfl
      refine Spec.bind (spec_configInit hturns call.load) ?_
      rintro _ _ ⟨l', lost', rfl, hl', hlost', rfl⟩
      refine Spec.bind_assign (a := conf) (b := .other (.config l.pointer (some at_path)))
        (r := {(at_path, .other (.string path))} + l'.blocks + (heads lost + heads lost')) (by abel) rfl ?_
      refine Spec.pure ⟨l', lost + lost', ?_, fun cfg hcfg => ?_, ?_, ?_⟩
      · rw [Loaded.config, Loaded.config, hl']
      · rw [hl'] at hcfg
        exact call.load.distinct hcfg
      · rw [Multiset.card_add, hlost']
      · rw [standing, heads_add]
        abel
    · rw [standing]
      abel
  · rw [if_neg hpath, if_neg (show ¬ _ = (l.config path).configPath from hpath), if_neg hpath]
    refine Spec.bind_loadAs hconf rfl ?_
    cases l with
    | none => exact Spec.pure ⟨none, lost, rfl, h, rfl, rfl⟩
    | some list =>
        obtain ⟨head, ps⟩ := list
        refine Spec.bind_loadAs (b := .head (nextOf (ps.map Placed.elm) none)
          (some (lastLink (.first head) (ps.map Placed.elm)))) ?_ rfl ?_
        · have hhead := mem_head head ps
          simp [standing, Loaded.blocks, hhead]
        · have hlength : ps.length < turns := Loaded.length_lt hturns h (head, ps) rfl
          have hentries := (spec_injectEntries call.draws call.path call.operation head [] ps hlength 0 0).frame
            ({(conf, .other (.config (Loaded.pointer (some (head, ps))) (some at_path)))} +
              {(at_path, .other (.string path))} + heads lost)
          refine (hentries.of_eq ?_).mono ?_
          · rw [standing, Loaded.blocks, List.nil_append]
            abel
          · rintro _ _ ⟨_, rfl, rfl, rfl⟩
            refine ⟨some (head, ps), lost, rfl, h, rfl, ?_⟩
            rw [standing, Loaded.blocks, List.nil_append]
            abel

omit [PosixRegex] in
theorem spec_mainStart (hturns : errinjTypes.length < turns) (path : Bytes) (load : Load) :
    Spec 0 (mainStart turns path load) fun conf m => ∃ (at_path : Nat) (l : Loaded) (lost : Multiset Nat),
      l.errors = load.configured ∧ lost.card = load.leaks ∧ m = standing conf at_path path l lost := by
  refine Spec.bind_alloc fun conf => Spec.bind_alloc fun at_path => ?_
  refine Spec.bind_assign (a := conf) (b := .other (.config none none)) (r := {(at_path, .other (.string path))})
    (by abel) rfl ?_
  refine Spec.of_eq (Spec.bind (spec_configInit hturns load) ?_) (zero_add _).symm
  rintro _ _ ⟨l, lost, rfl, hl, hlost, rfl⟩
  refine Spec.bind_assign (a := conf) (b := .other (.config none (some at_path)))
    (r := {(at_path, .other (.string path))} + l.blocks + heads lost) (by abel) rfl ?_
  exact Spec.pure ⟨at_path, l, lost, hl, hlost, by rw [standing]; abel⟩

omit [PosixRegex] in
/-- At the end only `conf` itself is left, which is no block of the heap in C, and the heads that were lost. -/
theorem spec_mainCleanup (hturns : errinjTypes.length < turns) (h : ∀ cfg ∈ l.errors, DistinctTypes cfg) :
    Spec (standing conf at_path path l lost) (mainCleanup turns conf) fun _ m =>
      m = {(conf, .other (.config l.pointer (some at_path)))} + heads lost := by
  refine Spec.bind_loadAs (b := .other (.config l.pointer (some at_path))) (by simp [standing]) rfl ?_
  refine Spec.of_eq (Spec.bind (r := {(conf, .other (.config l.pointer (some at_path)))} +
    {(at_path, .other (.string path))} + heads lost) (spec_configDelete l (Loaded.length_lt hturns h)) ?_) ?_
  · rintro _ _ rfl
    refine Spec.bind_loadAs (b := .other (.config l.pointer (some at_path))) (by simp) rfl ?_
    exact Spec.free (b := .other (.string path)) (by abel) rfl
  · rw [standing]
    abel

end Calls

/-- The calls one after another, on the list. -/
def answers (conf : UnreliablefsConfig) : List Call → List Int × UnreliablefsConfig
  | [] => ([], conf)
  | call :: rest =>
      ((answer conf call).1 :: (answers (answer conf call).2 rest).1, (answers (answer conf call).2 rest).2)

/-- The heap has the blocks of this configuration, and some heads that were lost. -/
def Stands (conf : Nat) (c : UnreliablefsConfig) (leaks : Nat) (h : Heap ConfBlock) : Prop :=
  ∃ (at_path : Nat) (l : Loaded) (lost : Multiset Nat), l.config c.configPath = c ∧
    (∀ cfg ∈ l.errors, DistinctTypes cfg) ∧ lost.card = leaks ∧ Owns h (standing conf at_path c.configPath l lost)

theorem answer_configPath (conf : UnreliablefsConfig) (call : Call) :
    (answer conf call).2.configPath = conf.configPath := by
  unfold answer Bnfs.errorInject
  split_ifs
  · rfl
  · cases conf.errors <;> rfl

section Threads

variable {turns conf : Nat} {c : UnreliablefsConfig} {leaks : Nat} {h : Heap ConfBlock}

theorem Stands.call (hturns : errinjTypes.length < turns) (hc : Stands conf c leaks h) (call : Call) :
    ∃ h', (errorInject turns conf call).run exec h = some ((answer c call).1, h') ∧
      Stands conf (answer c call).2 (leaks + call.leaks c.configPath) h' := by
  obtain ⟨at_path, l, lost, hconfig, hdistinct, rfl, howns⟩ := hc
  rw [← add_zero (standing _ _ _ _ _)] at howns
  obtain ⟨rc, h', m', hrun, ⟨l', lost', heq, hdistinct', hcard, rfl⟩, howns'⟩ :=
    spec_errorInject hturns hdistinct call h 0 howns
  rw [hconfig] at heq
  refine ⟨h', by rw [hrun, ← heq], at_path, l', lost', ?_, hdistinct', hcard, ?_⟩
  · rw [answer_configPath, ← heq]
  · rw [answer_configPath]
    rwa [add_zero] at howns'

theorem Stands.serial (hturns : errinjTypes.length < turns) (hc : Stands conf c leaks h) {calls : List Call}
    {replies : List Int} {h' : Heap ConfBlock}
    (hserial : Locked.serial exec (errorInject turns conf) h calls = some (replies, h')) :
    replies = (answers c calls).1 ∧
      Stands conf (answers c calls).2 (leaks + (calls.map fun call => call.leaks c.configPath).sum) h' := by
  induction calls generalizing c leaks h replies with
  | nil =>
      cases hserial
      exact ⟨rfl, hc⟩
  | cons call rest ih =>
      obtain ⟨h₁, hrun, hstands⟩ := hc.call hturns call
      obtain ⟨r, hr, hrest⟩ := Option.bind_eq_some_iff.mp hserial
      obtain ⟨q, hq, heq⟩ := Option.map_eq_some_iff.mp hrest
      obtain ⟨rfl, rfl⟩ := Prod.ext_iff.mp heq
      obtain rfl : ((answer c call).1, h₁) = r := Option.some.inj (hrun.symm.trans hr)
      obtain ⟨hreplies, hlast⟩ := ih hstands hq
      rw [answer_configPath] at hlast
      refine ⟨congrArg _ hreplies, ?_⟩
      rwa [List.map_cons, List.sum_cons, ← add_assoc]

omit [PosixRegex] in
theorem stands_start (hturns : errinjTypes.length < turns) (path : Bytes) (load : Load) :
    ∃ conf h, (mainStart turns path load).run exec Heap.empty = some (conf, h) ∧
      Stands conf ⟨load.configured, path⟩ load.leaks h := by
  obtain ⟨conf, h, _, hrun, ⟨at_path, l, lost, hl, hcard, rfl⟩, howns⟩ :=
    spec_mainStart hturns path load Heap.empty 0 owns_empty
  rw [add_zero] at howns
  refine ⟨conf, h, hrun, at_path, l, lost, by rw [Loaded.config, hl], fun cfg hcfg => ?_, hcard, howns⟩
  rw [hl] at hcfg
  exact load.distinct hcfg

variable {T : Type} [DecidableEq T]

/-- From the start of the program on, any threads may call `error_inject` in any order of their steps: none of them follows
a pointer to a block that was freed or frees one again, no call hangs, and each returns what it would return if the calls
were made one after another in the order in which they end. -/
theorem threads_inject_as_one (hturns : errinjTypes.length < turns) (path : Bytes) (load : Load) :
    ∃ conf h, (mainStart turns path load).run exec Heap.empty = some (conf, h) ∧
      ∀ {trace} {s : Locked.State (Command.Reply (B := ConfBlock)) T Call Int (Heap ConfBlock)},
        Locked.Interleaving exec (errorInject turns conf) (Locked.start h) trace s →
          (∀ t, ¬ Locked.Faults exec s t) ∧
          (∀ t, s.phase t ≠ .idle →
            ∃ move s', move.GoesOn ∧ Locked.next exec (errorInject turns conf) s move = some s') ∧
          s.finished.map (·.2.2) = (answers ⟨load.configured, path⟩ (s.finished.map (·.2.1))).1 := by
  obtain ⟨conf, h, hrun, hstands⟩ := stands_start hturns path load
  refine ⟨conf, h, hrun, fun hinter => ?_⟩
  obtain ⟨before, hserial⟩ := hinter.serial
  obtain ⟨hreplies, hbefore⟩ := hstands.serial hturns hserial.finished
  have hsafe : Locked.Safe exec (errorInject turns conf) fun h => ∃ c leaks, Stands conf c leaks h :=
    fun call _ ⟨_, _, hc⟩ => by
      obtain ⟨h', hcall, hc'⟩ := hc.call hturns call
      exact ⟨_, h', hcall, _, _, hc'⟩
  have hfaults := hserial.not_faults hsafe ⟨_, _, hbefore⟩
  exact ⟨hfaults, fun _ ht => hserial.goes_on hfaults ht, hreplies⟩

/-- While no call holds the mutex, the heap has the blocks of the configuration the calls led to, and the head of one list
for each load that found the file and could not open it. The end of `main` frees all but these heads. -/
theorem blocks_accounted (hturns : errinjTypes.length < turns) (path : Bytes) (load : Load) :
    ∃ conf h, (mainStart turns path load).run exec Heap.empty = some (conf, h) ∧
      ∀ {trace} {s : Locked.State (Command.Reply (B := ConfBlock)) T Call Int (Heap ConfBlock)},
        Locked.Interleaving exec (errorInject turns conf) (Locked.start h) trace s → s.holder = none →
          Stands conf (answers ⟨load.configured, path⟩ (s.finished.map (·.2.1))).2
            (load.leaks + (s.finished.map fun call => call.2.1.leaks path).sum) s.shared ∧
          ∃ (h' : Heap ConfBlock) (list file : Option Nat) (lost : Multiset Nat),
            (mainCleanup turns conf).run exec s.shared = some ((), h') ∧
              lost.card = load.leaks + (s.finished.map fun call => call.2.1.leaks path).sum ∧
              Owns h' ({(conf, .other (.config list file))} + heads lost) := by
  obtain ⟨conf, h, hrun, hstands⟩ := stands_start hturns path load
  refine ⟨conf, h, hrun, fun {_ s} hinter hfree => ?_⟩
  obtain ⟨before, hserial⟩ := hinter.serial
  have hbefore := (hstands.serial hturns hserial.finished).2
  rw [← hserial.free hfree, List.map_map] at hbefore
  refine ⟨hbefore, ?_⟩
  obtain ⟨at_path, l, lost, _, hdistinct, hcard, howns⟩ := hbefore
  rw [← add_zero (standing _ _ _ _ _)] at howns
  obtain ⟨_, h', _, hclean, rfl, howns'⟩ := spec_mainCleanup hturns hdistinct s.shared 0 howns
  rw [add_zero] at howns'
  exact ⟨h', l.pointer, some at_path, lost, hclean, hcard, howns'⟩

end Threads

section Sample

omit [PosixRegex]

/-- No file yet. -/
def sampleMissing : Load := ⟨true, false, none, fun _ => ⟨true, true⟩⟩

def sampleWritten : Load :=
  ⟨true, true, some (ascii "[errinj_noop]\nprobability = 100\n"), fun _ => ⟨true, true⟩⟩

/-- A file that cannot be opened. -/
def sampleClosed : Load := ⟨true, true, none, fun _ => ⟨true, true⟩⟩

def sampleReload (load : Load) : Call := ⟨ascii "/conf", .write, sampleDraws 0 0, load⟩

def sampleInject : Call := ⟨ascii "/f", .write, sampleDraws 0 0, sampleMissing⟩

/-- Two threads: one loads the file, the other has called before and comes after. -/
def sampleThreads (load : Load) (commands commands' : Nat) : List (Locked.Move Bool Call) :=
  [.call false sampleInject, .call true (sampleReload load), .lock true] ++ List.replicate commands (.command true) ++
    [.unlock true, .lock false] ++ List.replicate commands' (.command false) ++ [.unlock false]

/-- The heap that `main` starts the threads with. -/
def sampleHeap : Heap ConfBlock := ((mainStart 7 (ascii "/conf") sampleMissing).run exec Heap.empty).get (by decide) |>.2

theorem sampleHeap_run :
    (mainStart 7 (ascii "/conf") sampleMissing).run exec Heap.empty = some (0, sampleHeap) := by
  rfl

theorem threads_inject_as_one_sample :
    letI := sampleRegex
    ∃ s : Locked.State (Command.Reply (B := ConfBlock)) Bool Call Int (Heap ConfBlock),
      s.finished.map (fun call => (call.1, call.2.2)) = [(true, 0), (false, 999)] ∧ (∀ t, ¬ Locked.Faults exec s t) ∧
        [0, 999] = (answers ⟨sampleMissing.configured, ascii "/conf"⟩ (s.finished.map (·.2.1))).1 := by
  let _ := sampleRegex
  obtain ⟨conf, h, hrun, hall⟩ := threads_inject_as_one (T := Bool)
    (show errinjTypes.length < 7 by decide) (ascii "/conf") sampleMissing
  cases sampleHeap_run.symm.trans hrun
  have hreplies : ((Runs.advance (Locked.next exec (errorInject 7 0)) (sampleThreads sampleWritten 27 9)
      ([], Locked.start sampleHeap)).map fun r => r.2.finished.map fun call => (call.1, call.2.2)) =
        some [(true, 0), (false, 999)] := by
    decide +kernel
  obtain ⟨⟨trace, s⟩, hadvance, hfinished⟩ := Option.map_eq_some_iff.mp hreplies
  obtain ⟨hfaults, _, hserial⟩ := hall (.of_advance (sampleThreads sampleWritten 27 9) .nil hadvance)
  refine ⟨s, hfinished, hfaults, ?_⟩
  have hsnd := congrArg (List.map Prod.snd) hfinished
  rw [List.map_map] at hsnd
  rw [← hserial]
  exact hsnd.symm

/-- One head is lost when the file cannot be opened. -/
theorem blocks_accounted_sample :
    letI := sampleRegex
    ∃ (s : Locked.State (Command.Reply (B := ConfBlock)) Bool Call Int (Heap ConfBlock)) (h : Heap ConfBlock)
      (list file : Option Nat) (lost : Multiset Nat),
      s.finished.map (fun call => (call.1, call.2.2)) = [(true, 0), (false, 0)] ∧
        (mainCleanup 7 0).run exec s.shared = some ((), h) ∧ lost.card = 1 ∧
          Owns h ({(0, .other (.config list file))} + heads lost) := by
  let _ := sampleRegex
  obtain ⟨conf, h, hrun, hall⟩ := blocks_accounted (T := Bool)
    (show errinjTypes.length < 7 by decide) (ascii "/conf") sampleMissing
  cases sampleHeap_run.symm.trans hrun
  have hreplies : ((Runs.advance (Locked.next exec (errorInject 7 0)) (sampleThreads sampleClosed 12 3)
      ([], Locked.start sampleHeap)).map fun r => (r.2.finished.map fun call => (call.1, call.2.2), r.2.holder,
        (r.2.finished.map fun call => call.2.1.leaks (ascii "/conf")).sum)) =
        some ([(true, 0), (false, 0)], none, 1) := by
    decide +kernel
  obtain ⟨⟨trace, s⟩, hadvance, heq⟩ := Option.map_eq_some_iff.mp hreplies
  simp only [Prod.mk.injEq] at heq
  obtain ⟨hfinished, hholder, hleaks⟩ := heq
  obtain ⟨_, h', list, file, lost, hclean, hcard, howns⟩ :=
    hall (.of_advance (sampleThreads sampleClosed 12 3) .nil hadvance) hholder
  exact ⟨s, h', list, file, lost, hfinished, hclean, by rw [hcard, hleaks]; rfl, howns⟩

end Sample

end Bnfs.InMemory
