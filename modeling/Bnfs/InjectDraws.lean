import Bnfs.ModelInject

/-! Which entries of a configuration fire on which draws, and what they contribute. The helper `rand_range` includes both
of its ends. For a probability that makes 101 values of which 0 is one, so that an entry with probability 0 fires now
and then; for an errno it makes one index too many. -/

namespace Bnfs

variable [PosixRegex]

/-- The expressions of the entry match or are absent. -/
def ErrinjConf.Matches (err : ErrinjConf) (path : Bytes) (op : FuseOp) : Prop :=
  isRegexMatched err.path_regexp path = 0 ∧ isRegexMatched err.op_regexp op.fuseOpName = 0

theorem ErrinjConf.triggered_iff (err : ErrinjConf) (chance : Nat) (path : Bytes) (op : FuseOp) :
    err.triggered chance path op = true ↔ chance % 101 ≤ err.probability ∧ err.Matches path op := by
  rw [ErrinjConf.triggered, ErrinjConf.Matches, Bool.and_eq_true, Bool.and_eq_true, decide_eq_true_iff, beq_iff_eq,
    beq_iff_eq, and_assoc]
  rfl

/-- The entries that fire, each with its number. -/
def fired (conf : UnreliablefsConfig) (draws : Draws) (path : Bytes) (op : FuseOp) : List (ErrinjConf × Nat) :=
  if path = conf.configPath then []
  else match conf.errors with
    | none => []
    | some errors => errors.zipIdx.filter fun entry => entry.1.triggered (draws.chance entry.2) path op

/-- What an entry that fires leaves as `rc`. -/
def contributed (draws : Draws) (op : FuseOp) (rc : Int) (entry : ErrinjConf × Nat) : Int :=
  entry.1.type.apply (opRandomErrno draws.past (draws.choice entry.2) op) rc

theorem injectAll_eq_foldl (draws : Draws) (path : Bytes) (op : FuseOp) (errors : List ErrinjConf) (k : Nat)
    (rc : Int) : injectAll draws path op k errors rc =
      ((errors.zipIdx k).filter fun entry => entry.1.triggered (draws.chance entry.2) path op).foldl
        (contributed draws op) rc := by
  induction errors generalizing k rc with
  | nil => rfl
  | cons err rest ih =>
      rw [injectAll, ih, List.zipIdx_cons, List.filter_cons]
      by_cases htriggered : err.triggered (draws.chance k) path op = true
      · rw [if_pos htriggered, if_pos htriggered, List.foldl_cons]
        rfl
      · rw [if_neg htriggered, if_neg htriggered]

/-- The result is made by the entries that fire, one after the other. -/
theorem errorInject_eq_foldl (reread : Option (List ErrinjConf)) (conf : UnreliablefsConfig) (draws : Draws)
    (path : Bytes) (operation : FuseOp) : (errorInject reread conf draws path operation).1 =
      (fired conf draws path operation).foldl (contributed draws operation) 0 := by
  unfold errorInject fired
  split_ifs
  · rfl
  · cases conf.errors with
    | none => rfl
    | some errors => exact injectAll_eq_foldl draws path operation errors 0 0

theorem mem_fired_iff {conf : UnreliablefsConfig} {draws : Draws} {path : Bytes} {op : FuseOp} {err : ErrinjConf}
    {k : Nat} : (err, k) ∈ fired conf draws path op ↔ path ≠ conf.configPath ∧
      ∃ errors, conf.errors = some errors ∧ errors[k]? = some err ∧
        draws.chance k % 101 ≤ err.probability ∧ err.Matches path op := by
  unfold fired
  by_cases hpath : path = conf.configPath
  · rw [if_pos hpath]
    exact iff_of_false List.not_mem_nil fun h => h.1 hpath
  · rw [if_neg hpath, and_iff_right hpath]
    cases conf.errors with
    | none => exact iff_of_false List.not_mem_nil fun ⟨_, h, _⟩ => nomatch h
    | some errors =>
        simp only [List.mem_filter, List.mem_zipIdx_iff_getElem?, ErrinjConf.triggered_iff, Option.some.injEq,
          exists_eq_left']

/-- The same configuration with another probability in one entry. -/
def UnreliablefsConfig.withProbability (conf : UnreliablefsConfig) (k p : Nat) : UnreliablefsConfig :=
  { conf with errors := conf.errors.map fun errors => errors.modify k fun err => { err with probability := p } }

/-- An entry never fires at 0, always at 100 if its expressions match, and at a higher probability whenever it does at a
lower one. -/
structure ProbabilityMeant (conf : UnreliablefsConfig) (draws : Draws) (path : Bytes) (op : FuseOp) : Prop where
  never : ∀ entry ∈ fired conf draws path op, entry.1.probability ≠ 0
  always : ∀ errors, conf.errors = some errors → ∀ err k, errors[k]? = some err → err.probability = 100 →
    err.Matches path op → (err, k) ∈ fired conf draws path op
  more : ∀ err k p, (err, k) ∈ fired conf draws path op → err.probability ≤ p → p ≤ 100 →
    ({ err with probability := p }, k) ∈ fired (conf.withProbability k p) draws path op

/-- Entries that match: on the configuration file none has probability 100, and on any other path no draw for one of
probability 0 is a multiple of 101. -/
structure BoundsSpared (conf : UnreliablefsConfig) (draws : Draws) (path : Bytes) (op : FuseOp) : Prop where
  config : path = conf.configPath → ∀ errors, conf.errors = some errors → ∀ err ∈ errors,
    err.Matches path op → err.probability ≠ 100
  zero : path ≠ conf.configPath → ∀ errors, conf.errors = some errors → ∀ err k, errors[k]? = some err →
    err.Matches path op → err.probability = 0 → ¬ 101 ∣ draws.chance k

theorem fired_more {conf : UnreliablefsConfig} {draws : Draws} {path : Bytes} {op : FuseOp} {err : ErrinjConf}
    {k p : Nat} (h : (err, k) ∈ fired conf draws path op) (hle : err.probability ≤ p) :
    ({ err with probability := p }, k) ∈ fired (conf.withProbability k p) draws path op := by
  obtain ⟨hpath, errors, herrors, hget, hchance, hmatches⟩ := mem_fired_iff.mp h
  refine mem_fired_iff.mpr ⟨hpath, errors.modify k fun err => { err with probability := p }, ?_, ?_, ?_, hmatches⟩
  · rw [UnreliablefsConfig.withProbability, herrors, Option.map_some]
  · rw [List.getElem?_modify_eq, hget]
    rfl
  · exact hchance.trans hle

theorem probability_meant_iff (conf : UnreliablefsConfig) (draws : Draws) (path : Bytes) (op : FuseOp) :
    ProbabilityMeant conf draws path op ↔ BoundsSpared conf draws path op := by
  constructor
  · intro h
    constructor
    · intro hpath errors herrors err hmem hmatches hhundred
      obtain ⟨k, hget⟩ := List.mem_iff_getElem?.mp hmem
      exact (mem_fired_iff.mp (h.always errors herrors err k hget hhundred hmatches)).1 hpath
    · intro hpath errors herrors err k hget hmatches hzero hdvd
      have hchance : draws.chance k % 101 ≤ err.probability := by
        rw [Nat.mod_eq_zero_of_dvd hdvd]
        exact Nat.zero_le _
      exact h.never _ (mem_fired_iff.mpr ⟨hpath, errors, herrors, hget, hchance, hmatches⟩) hzero
  · intro h
    constructor
    · rintro ⟨err, k⟩ hfired hzero
      obtain ⟨hpath, errors, herrors, hget, hchance, hmatches⟩ := mem_fired_iff.mp hfired
      refine h.zero hpath errors herrors err k hget hmatches hzero (Nat.dvd_of_mod_eq_zero ?_)
      rw [hzero] at hchance
      omega
    · intro errors herrors err k hget hhundred hmatches
      have hpath : path ≠ conf.configPath := fun hpath =>
        h.config hpath errors herrors err (List.mem_of_getElem? hget) hmatches hhundred
      exact mem_fired_iff.mpr ⟨hpath, errors, herrors, hget, by omega, hmatches⟩
    · exact fun err k p hfired hle _ => fired_more hfired hle

/-- An entry that picks an errno picks it within the table of the operation, and contributes its negation. -/
def ErrnosListed (conf : UnreliablefsConfig) (draws : Draws) (path : Bytes) (op : FuseOp) : Prop :=
  ∀ entry ∈ fired conf draws path op, entry.1.type = .errno →
    randRange (draws.choice entry.2) 0 op.errnos.length < op.errnos.length ∧
      ∀ rc, ∃ e ∈ op.errnos, contributed draws op rc entry = -e

omit [PosixRegex] in
/-- The index is beyond the table at every draw that is one less than a multiple of its length plus one. -/
theorem index_lt_iff (choice length : Nat) :
    randRange choice 0 length < length ↔ ¬ length + 1 ∣ choice + 1 := by
  have hlt : choice % (length + 1) < length + 1 := Nat.mod_lt _ (Nat.succ_pos length)
  have hsucc : length + 1 ∣ choice + 1 ↔ choice % (length + 1) = length := by
    rw [Nat.dvd_iff_mod_eq_zero, Nat.add_mod]
    constructor
    · intro h
      by_contra hne
      rw [Nat.mod_eq_of_lt (a := 1) (by omega), Nat.mod_eq_of_lt (by omega)] at h
      omega
    · intro h
      rw [h, Nat.add_mod_mod, Nat.mod_self]
  rw [hsucc, randRange, Nat.sub_zero, Nat.add_zero]
  omega

theorem errnos_listed_iff (conf : UnreliablefsConfig) (draws : Draws) (path : Bytes) (op : FuseOp) :
    ErrnosListed conf draws path op ↔ ∀ entry ∈ fired conf draws path op, entry.1.type = .errno →
      ¬ op.errnos.length + 1 ∣ draws.choice entry.2 + 1 := by
  refine forall₃_congr fun entry _ htype => ?_
  rw [index_lt_iff, and_iff_left_iff_imp]
  intro hindex rc
  have hlt := (index_lt_iff _ _).mpr hindex
  refine ⟨op.errnos[randRange (draws.choice entry.2) 0 op.errnos.length], List.getElem_mem hlt, ?_⟩
  rw [contributed, htype, opRandomErrno, List.getD_eq_getElem?_getD, List.getElem?_eq_getElem hlt]
  rfl

section Sample

omit [PosixRegex]

/-- Every expression matches every string. -/
abbrev sampleRegex : PosixRegex := ⟨fun _ _ => 0⟩

/-- A configuration of one entry without expressions. -/
def sampleConf (type : ErrinjType) (probability : Nat) : UnreliablefsConfig :=
  ⟨some [⟨none, none, probability, 0, type⟩], ascii "/conf"⟩

/-- One value for every probability, one for every errno, and 0 behind each table. -/
def sampleDraws (chance choice : Nat) : Draws := ⟨fun _ => chance, fun _ => choice, fun _ => 0⟩

/-- At probability 0 the draw 0 has a write done nothing of. -/
theorem never_happens :
    letI := sampleRegex
    (errorInject none (sampleConf .noop 0) (sampleDraws 0 0) (ascii "/f") .write).1 = -ERRNO_NOOP ∧
      ¬ ProbabilityMeant (sampleConf .noop 0) (sampleDraws 0 0) (ascii "/f") .write := by
  let _ := sampleRegex
  refine ⟨by decide, fun h => h.never (⟨none, none, 0, 0, .noop⟩, 0) ?_ rfl⟩
  decide

/-- The table of `readdir` has one errno, and at a draw of 1 the index is 1. -/
theorem errno_not_listed :
    letI := sampleRegex
    randRange 1 0 FuseOp.readdir.errnos.length = 1 ∧ FuseOp.readdir.errnos = [EBADF] ∧
      (errorInject none (sampleConf .errno 100) (sampleDraws 0 1) (ascii "/f") .readdir).1 = 0 ∧
      ¬ ErrnosListed (sampleConf .errno 100) (sampleDraws 0 1) (ascii "/f") .readdir := by
  let _ := sampleRegex
  refine ⟨rfl, rfl, by decide, fun h => ?_⟩
  have hlisted := (h (⟨none, none, 100, 0, .errno⟩, 0) (by decide) rfl).1
  exact absurd hlisted (by decide)

end Sample

end Bnfs
