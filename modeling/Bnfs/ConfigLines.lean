import Bnfs.ModelConfig
import Bnfs.TheoryKeyed

/-! The lines of a configuration. What a whole file amounts to is a table of entries under their types; what a line
with an unknown section or an unknown key does is not what the parser is told. -/

namespace Bnfs

/-- The keys the handler knows. -/
def knownOptions : List Bytes :=
  [ascii "path_regexp", ascii "op_regexp", ascii "probability", ascii "duration"]

/-- An unknown key is answered with 0 and changes nothing in the entry. -/
theorem setOption_unknown {key : CString} (h : key.bytes ∉ knownOptions) (alloc : Allocs) (value : CString)
    (err : ErrinjConf) : setOption alloc key value err = (0, err) := by
  simp only [knownOptions, List.mem_cons, List.not_mem_nil, or_false, not_or] at h
  obtain ⟨hpath, hop, hprobability, hduration⟩ := h
  rw [setOption, if_neg hpath, if_neg hop, if_neg hprobability, if_neg hduration]

/-- A line with an unknown section or key: the list stays as it is and the result is the one for an error exactly if the
section is known and has its entry already. -/
theorem rejected_line_iff {call : ConfCall}
    (h : errinjTypeByName call.section_name.bytes = none ∨ call.key.bytes ∉ knownOptions) (alloc : Allocs)
    (cfg : List ErrinjConf) : confOptionHandler alloc cfg call = (0, cfg) ↔
      ∃ err ∈ cfg, errinjTypeByName call.section_name.bytes = some err.type := by
  have hfailed : ¬ ((-1 : Int), cfg) = (0, cfg) := fun heq => by cases heq
  cases htype : errinjTypeByName call.section_name.bytes with
  | none =>
      rw [handler_unknown htype]
      exact iff_of_false hfailed fun ⟨_, _, hsome⟩ => nomatch hsome
  | some cur_type =>
      have hkey : call.key.bytes ∉ knownOptions := h.resolve_left (htype ▸ Option.some_ne_none cur_type)
      have hset := setOption_unknown hkey alloc call.value
      cases hfound : cfg.findIdx? fun np => np.type = cur_type with
      | some i =>
          obtain ⟨hlt, hat, _⟩ := List.findIdx?_eq_some_iff_getElem.mp hfound
          refine iff_of_true ?_ ⟨cfg[i], List.getElem_mem hlt, by rw [of_decide_eq_true hat]⟩
          rw [handler_found htype hfound]
          simp only [hset]
          exact Prod.ext rfl (List.modify_id i cfg)
      | none =>
          have hnone := List.findIdx?_eq_none_iff.mp hfound
          refine iff_of_false ?_ ?_
          · cases hcalloc : alloc.calloc with
            | true =>
                rw [handler_created htype hfound hcalloc]
                intro heq
                exact absurd (List.append_right_eq_self.mp (Prod.ext_iff.mp heq).2) (List.cons_ne_nil _ _)
            | false =>
                rw [handler_out_of_memory htype hfound hcalloc]
                exact hfailed
          · rintro ⟨err, hmem, hsome⟩
            exact of_decide_eq_false (hnone err hmem) (Option.some.inj hsome).symm

/-- `[errinj_noop]` with an option that does not exist. -/
def sampleUnknownKey : ConfCall :=
  ⟨⟨ascii "errinj_noop", by decide⟩, ⟨ascii "percentage", by decide⟩, ⟨ascii "70", by decide⟩⟩

/-- An injection that does not exist. -/
def sampleUnknownSection : ConfCall :=
  ⟨⟨ascii "errinj_nop", by decide⟩, ⟨ascii "probability", by decide⟩, ⟨ascii "70", by decide⟩⟩

theorem rejected_line_iff_sample :
    confOptionHandler ⟨true, true⟩ [.zeroed .noop] sampleUnknownKey = (0, [.zeroed .noop]) :=
  (rejected_line_iff (Or.inr (by decide)) ⟨true, true⟩ [.zeroed .noop]).mpr ⟨.zeroed .noop, by decide, by decide⟩

/-- On an empty list the one adds an entry, which matches every operation, and the other is answered with a value that is
no error to the parser. -/
theorem rejected_line_taken :
    sampleUnknownKey.key.bytes ∉ knownOptions ∧
      confOptionHandler ⟨true, true⟩ [] sampleUnknownKey = (0, [.zeroed .noop]) ∧
      errinjTypeByName sampleUnknownSection.section_name.bytes = none ∧
      confOptionHandler ⟨true, true⟩ [] sampleUnknownSection = (-1, []) ∧
      ¬ confOptionHandler ⟨true, true⟩ [] sampleUnknownKey = (0, []) ∧
      ¬ confOptionHandler ⟨true, true⟩ [] sampleUnknownSection = (0, []) := by
  decide

/-- The entries under their types, made by calls whose section is known. -/
def configTable : Keyed.Table ErrinjType ErrinjConf (ErrinjType × ConfCall) where
  keyOf err := err.type
  fresh := .zeroed
  target call := call.1
  change call err := (setOption ⟨true, true⟩ call.2.key call.2.value err).2
  keyOf_fresh _ := rfl
  keyOf_change _ _ := setOption_type _ _ _ _

/-- The calls whose section is known, with its type. -/
def knownCalls (calls : List ConfCall) : List (ErrinjType × ConfCall) :=
  calls.filterMap fun call => (errinjTypeByName call.section_name.bytes).map fun type => (type, call)

theorem knownCalls_cons_none {call : ConfCall} (h : errinjTypeByName call.section_name.bytes = none)
    (rest : List ConfCall) : knownCalls (call :: rest) = knownCalls rest :=
  List.filterMap_cons_none (by rw [h]; rfl)

theorem knownCalls_cons_some {call : ConfCall} {type : ErrinjType}
    (h : errinjTypeByName call.section_name.bytes = some type) (rest : List ConfCall) :
    knownCalls (call :: rest) = (type, call) :: knownCalls rest :=
  List.filterMap_cons_some (by rw [h]; rfl)

/-- The list once the parser has made its calls, all allocations succeeding. -/
def configured (calls : List ConfCall) : List ErrinjConf :=
  calls.foldl (fun cfg call => (confOptionHandler ⟨true, true⟩ cfg call).2) []

/-- A call with a known section is a step of the table. -/
theorem handler_eq_step {call : ConfCall} {cur_type : ErrinjType}
    (h : errinjTypeByName call.section_name.bytes = some cur_type) (cfg : List ErrinjConf) :
    (confOptionHandler ⟨true, true⟩ cfg call).2 = configTable.step (cur_type, call) cfg := by
  have hsearch : (cfg.findIdx? fun entry => configTable.keyOf entry = configTable.target (cur_type, call)) =
      cfg.findIdx? fun np => np.type = cur_type := rfl
  rw [Keyed.Table.step_eq_findIdx, hsearch]
  cases hfound : cfg.findIdx? fun np => np.type = cur_type with
  | some i =>
      rw [handler_found h hfound]
      rfl
  | none =>
      rw [handler_created h hfound rfl]
      rfl

theorem configured_eq_run (calls : List ConfCall) : configured calls = configTable.run (knownCalls calls) := by
  unfold configured Keyed.Table.run
  generalize ([] : List ErrinjConf) = cfg
  induction calls generalizing cfg with
  | nil => rfl
  | cons call rest ih =>
      rw [List.foldl_cons, ih]
      cases htype : errinjTypeByName call.section_name.bytes with
      | none => rw [handler_unknown htype, knownCalls_cons_none htype]
      | some cur_type => rw [knownCalls_cons_some htype, List.foldl_cons, handler_eq_step htype]

/-- The value of the last call for a name and a key. -/
def lastValue (calls : List ConfCall) (type : ErrinjType) (key : Bytes) : Option Bytes :=
  (calls.filter fun call => call.section_name.bytes = type.errinjName ∧ call.key.bytes = key).getLast?.map
    (·.value.bytes)

/-- The value a call writes under a key. -/
def writtenUnder {α : Type} (read : Bytes → α) (key : Bytes) (call : ErrinjType × ConfCall) : Option α :=
  if call.2.key.bytes = key then some (read call.2.value.bytes) else none

/-- The values that calls with a known section write under a key of a type. -/
theorem written_knownCalls {α : Type} (read : Bytes → α) (calls : List ConfCall) (type : ErrinjType) (key : Bytes) :
    ((knownCalls calls).filter fun call => configTable.target call = type).filterMap (writtenUnder read key) =
      (calls.filter fun call => call.section_name.bytes = type.errinjName ∧ call.key.bytes = key).map fun call =>
        read call.value.bytes := by
  induction calls with
  | nil => rfl
  | cons call rest ih =>
      cases htype : errinjTypeByName call.section_name.bytes with
      | none =>
          have hother : call.section_name.bytes ≠ type.errinjName := fun hname => by
            rw [errinjTypeByName_iff.mpr hname.symm] at htype
            cases htype
          rw [knownCalls_cons_none htype, ih, List.filter_cons_of_neg (by simp [hother])]
      | some cur_type =>
          have hsection := errinjTypeByName_iff.mp htype
          have htarget : configTable.target (cur_type, call) = cur_type := rfl
          rw [knownCalls_cons_some htype]
          by_cases hsame : cur_type = type
          · subst hsame
            rw [List.filter_cons_of_pos (by simp [htarget])]
            by_cases hkey : call.key.bytes = key
            · have hwritten : writtenUnder read key (cur_type, call) = some (read call.value.bytes) := if_pos hkey
              rw [List.filterMap_cons_some hwritten, ih,
                List.filter_cons_of_pos (by simp [hkey, hsection]), List.map_cons]
            · have hwritten : writtenUnder read key (cur_type, call) = none := if_neg hkey
              rw [List.filterMap_cons_none hwritten, ih, List.filter_cons_of_neg (by simp [hkey])]
          · have hother : call.section_name.bytes ≠ type.errinjName := fun hname => by
              rw [errinjTypeByName_iff.mpr hname.symm] at htype
              exact hsame (Option.some.inj htype).symm
            rw [List.filter_cons_of_neg (by simp [htarget, hsame]), ih,
              List.filter_cons_of_neg (by simp [hother])]

/-- Each option writes its own field. -/
theorem setOption_fields (key value : CString) (err : ErrinjConf) :
    let changed := (setOption ⟨true, true⟩ key value err).2
    changed.path_regexp = (if key.bytes = ascii "path_regexp" then some value.bytes else err.path_regexp) ∧
      changed.op_regexp = (if key.bytes = ascii "op_regexp" then some value.bytes else err.op_regexp) ∧
      changed.probability =
        (if key.bytes = ascii "probability" then toUnsigned (atoi value.bytes) else err.probability) ∧
      changed.duration = (if key.bytes = ascii "duration" then toUnsigned (atoi value.bytes) else err.duration) := by
  intro changed
  have hpath : ascii "path_regexp" ≠ ascii "op_regexp" ∧ ascii "path_regexp" ≠ ascii "probability" ∧
      ascii "path_regexp" ≠ ascii "duration" := by decide
  have hop : ascii "op_regexp" ≠ ascii "probability" ∧ ascii "op_regexp" ≠ ascii "duration" := by decide
  have hprobability : ascii "probability" ≠ ascii "duration" := by decide
  show (setOption ⟨true, true⟩ key value err).2.path_regexp = _ ∧ (setOption ⟨true, true⟩ key value err).2.op_regexp = _ ∧
    (setOption ⟨true, true⟩ key value err).2.probability = _ ∧ (setOption ⟨true, true⟩ key value err).2.duration = _
  have hcopy : (⟨true, true⟩ : Allocs).copy value = some value.bytes := rfl
  unfold setOption
  by_cases h : key.bytes = ascii "path_regexp"
  · simp only [h, if_true, hpath, if_false, hcopy, and_self]
  by_cases h' : key.bytes = ascii "op_regexp"
  · simp only [h', if_true, hpath.1.symm, hop, if_false, hcopy, and_self]
  by_cases h'' : key.bytes = ascii "probability"
  · simp only [h'', if_true, hpath.2.1.symm, hop.1.symm, hprobability, if_false, and_self]
  simp only [h, h', h'', if_false]
  split_ifs <;> exact ⟨rfl, rfl, rfl, rfl⟩

/-- What a field of an entry is in the end, for a field that one option writes. -/
theorem configured_field {α : Type} {field : ErrinjConf → α} {key : Bytes} (read : Bytes → α)
    (h : ∀ k value err, field (setOption ⟨true, true⟩ k value err).2 =
      if k.bytes = key then read value.bytes else field err)
    {calls : List ConfCall} {err : ErrinjConf} (hmem : err ∈ configured calls) :
    field err = ((lastValue calls err.type key).map read).getD (field (.zeroed err.type)) := by
  have hentry : err = configTable.entryOf (knownCalls calls) err.type :=
    configTable.mem_run (configured_eq_run calls ▸ hmem)
  have hchange : ∀ (call : ErrinjType × ConfCall) (err : ErrinjConf), field (configTable.change call err) =
      (writtenUnder read key call).getD (field err) := fun call err => by
    refine (h call.2.key call.2.value err).trans ?_
    unfold writtenUnder
    split_ifs <;> rfl
  calc field err = field (configTable.entryOf (knownCalls calls) err.type) := congrArg field hentry
    _ = _ := configTable.field_foldl hchange _ _
    _ = ((lastValue calls err.type key).map read).getD (field (.zeroed err.type)) := by
      rw [written_knownCalls, List.getLast?_map, lastValue, Option.map_map]
      rfl

/-- The sections of the calls, without those that name no injection. -/
def knownSections (calls : List ConfCall) : List Bytes :=
  (calls.map fun call => call.section_name.bytes).filter (· ∈ errinjTypes.map ErrinjType.errinjName)

/-- The list is what the calls say: one entry for each known name that occurs as a section, in the order of the first
occurrences, and in each field the value of the last call for its name and option. -/
structure ConfigMeans (calls : List ConfCall) (cfg : List ErrinjConf) : Prop where
  names : cfg.map (·.type.errinjName) = (knownSections calls).eraseDups
  once : (cfg.map (·.type)).Nodup
  path_regexp : ∀ err ∈ cfg, err.path_regexp = lastValue calls err.type (ascii "path_regexp")
  op_regexp : ∀ err ∈ cfg, err.op_regexp = lastValue calls err.type (ascii "op_regexp")
  probability : ∀ err ∈ cfg, err.probability =
    ((lastValue calls err.type (ascii "probability")).map fun value => toUnsigned (atoi value)).getD 0
  duration : ∀ err ∈ cfg, err.duration =
    ((lastValue calls err.type (ascii "duration")).map fun value => toUnsigned (atoi value)).getD 0

theorem map_errinjTypeByName (name : Bytes) : (errinjTypeByName name).map ErrinjType.errinjName =
    if name ∈ errinjTypes.map ErrinjType.errinjName then some name else none := by
  cases htype : errinjTypeByName name with
  | some type =>
      rw [← errinjTypeByName_iff.mp htype, if_pos (List.mem_map_of_mem (by cases type <;> decide))]
      rfl
  | none =>
      refine (if_neg fun hmem => ?_).symm
      obtain ⟨type, _, hname⟩ := List.mem_map.mp hmem
      rw [errinjTypeByName_iff.mpr hname] at htype
      cases htype

theorem knownSections_eq (calls : List ConfCall) : knownSections calls =
    (calls.filterMap fun call => errinjTypeByName call.section_name.bytes).map ErrinjType.errinjName := by
  rw [knownSections, List.map_filterMap, List.filter_map, ← List.filterMap_eq_filter, List.map_filterMap]
  refine List.filterMap_congr fun call _ => ?_
  rw [map_errinjTypeByName]
  simp only [Option.guard, Function.comp_apply, decide_eq_true_eq]
  split_ifs <;> rfl

theorem configured_means (calls : List ConfCall) : ConfigMeans calls (configured calls) := by
  have htypes : (configured calls).map (·.type) =
      (calls.filterMap fun call => errinjTypeByName call.section_name.bytes).eraseDups := by
    have htargets : (knownCalls calls).map configTable.target =
        calls.filterMap fun call => errinjTypeByName call.section_name.bytes := by
      rw [knownCalls, List.map_filterMap]
      refine List.filterMap_congr fun call _ => ?_
      rw [Option.map_map]
      exact Option.map_id_apply
    rw [configured_eq_run, ← htargets]
    exact configTable.keys_run (knownCalls calls)
  have htext : ∀ value : Option Bytes, (value.map some).getD none = value := fun value => by cases value <;> rfl
  have hnames : (configured calls).map (·.type.errinjName) = (knownSections calls).eraseDups := by
    rw [knownSections_eq, ← Keyed.map_eraseDups errinjName_injective, ← htypes, List.map_map]
    rfl
  refine ⟨hnames, htypes ▸ Keyed.nodup_eraseDups _, fun err hmem => ?_, fun err hmem => ?_, fun err hmem => ?_,
    fun err hmem => ?_⟩
  · exact (configured_field some (fun k value err => (setOption_fields k value err).1) hmem).trans (htext _)
  · exact (configured_field some (fun k value err => (setOption_fields k value err).2.1) hmem).trans (htext _)
  · exact configured_field (fun value => toUnsigned (atoi value))
      (fun k value err => (setOption_fields k value err).2.2.1) hmem
  · exact configured_field (fun value => toUnsigned (atoi value))
      (fun k value err => (setOption_fields k value err).2.2.2) hmem

/-- A call for one name leaves the entries of the others as they are, and where they are. -/
theorem handler_getElem?_of_ne {cfg : List ErrinjConf} {call : ConfCall} {i : Nat} {err : ErrinjConf}
    (hget : cfg[i]? = some err) (hne : call.section_name.bytes ≠ err.type.errinjName) :
    (confOptionHandler ⟨true, true⟩ cfg call).2[i]? = some err := by
  cases htype : errinjTypeByName call.section_name.bytes with
  | none =>
      rw [handler_unknown htype]
      exact hget
  | some cur_type =>
      rw [handler_eq_step htype]
      refine configTable.step_getElem?_of_ne hget fun heq => hne ?_
      have hsame : err.type = cur_type := heq
      rw [hsame, errinjTypeByName_iff.mp htype]

theorem configInit_means (calls : List ConfCall) :
    configInit true true (some (calls.map fun call => (⟨true, true⟩, call))) = some (configured calls) ∧
      ConfigMeans calls (configured calls) ∧
      ∀ (cfg : List ErrinjConf) (call : ConfCall) (i : Nat) (err : ErrinjConf), cfg[i]? = some err →
        call.section_name.bytes ≠ err.type.errinjName →
          (confOptionHandler ⟨true, true⟩ cfg call).2[i]? = some err := by
  refine ⟨?_, configured_means calls, fun cfg call i err => handler_getElem?_of_ne⟩
  rw [configInit, if_neg (by decide), if_neg (by decide), Option.map_some, List.foldl_map]
  rfl

end Bnfs
