import Bnfs.ClientDirtySet
import Bnfs.ClientMounted
import Bnfs.ClientRename

/-! Runs of one client: opens, writes, truncations, flushes, renames and unlinks in any order, with handles
that stay open, while the server changes as it likes. -/

namespace Bnfs

open FileSystem Programs Runs

variable [Sha256]

section Rename

variable (E : Env) (old new : CString) (w : World)

omit [Sha256] in
/-- The server answers the rename with an OK status. -/
def RenamedOnServer : Prop :=
  (unary E .rename (FileServer.rename E old.bytes new.bytes) w).1.isSome = true

variable {E old w}

/-- Otherwise no local copy moves, and no mark. -/
theorem rename_stays (h : ¬ Moves E old w) : (AFSClient.rename E old new w).2.files = w.files ∧
    (AFSClient.rename E old new w).2.cl.dirty_files = w.cl.dirty_files := by
  have hsame := isPresentInCache_same E old w
  rcases rename_cases E old new w with ⟨_, heq⟩ | ⟨_, _, heq⟩ | ⟨hmoves, _⟩
  · have hcl := renameOnServer_cl E old new (isPresentInCache E old w).2
    rw [heq]
    exact ⟨(congrArg (·.files) hcl).trans hsame.files, (congrArg (·.dirty_files) hcl).trans hsame.dirty⟩
  · rw [heq]
    exact ⟨hsame.files, hsame.dirty⟩
  · exact absurd hmoves h

/-- A clean path takes its copy along, and no mark. -/
theorem rename_moves (h : Moves E old w) (hclean : getHashedPath old ∉ w.cl.dirty_files) :
    (AFSClient.rename E old new w).2.files =
        w.files.rename (getTempPath old) (getTempPath new) ∧
      (AFSClient.rename E old new w).2.cl.dirty_files = w.cl.dirty_files := by
  obtain ⟨hfiles, hdirty⟩ := carried_clean new hclean
  have hcl := renameOnServer_cl E old new (carried E old new w)
  rw [rename_of_moves E old new w h]
  exact ⟨(congrArg (·.files) hcl).trans hfiles, (congrArg (·.dirty_files) hcl).trans hdirty⟩

end Rename

/-- What is asked of the client, or what others do to the server. -/
inductive DirtyOp where
  | openFile (path : CString) (fi : FuseFileInfo) (is_create : Bool)
  | write (path : CString) (buf : Bytes) (offset : Nat) (fi : Option FuseFileInfo)
  | truncate (path : CString) (length : Int)
  | flush (path : CString) (fi : FuseFileInfo)
  | rename (oldpath newpath : CString)
  | unlink (path : CString)
  | remote (srv : Server)

/-- The client, the version last fetched or committed of each path, and the paths whose temporary copy was
created, written or truncated since. -/
structure Tracked where
  w : World
  base : CString → Option Bytes
  touched : Set CString

/-- What happens, and how its calls turn out. -/
structure DirtyTurn where
  op : DirtyOp
  E : Env

namespace DirtyOp

def paths : DirtyOp → List CString
  | .openFile path _ _ | .write path _ _ _ | .truncate path _ | .flush path _ | .unlink path => [path]
  | .rename oldpath newpath => [oldpath, newpath]
  | .remote _ => []

variable (E : Env) (s : Tracked)

def effect (w : World) : DirtyOp → World
  | .openFile path fi is_create => (openHandle E path fi is_create w).2
  | .write path buf offset fi => (unreliableWrite E path buf offset fi w).2
  | .truncate path length => (unreliableTruncate E path length w).2
  | .flush path fi => (unreliableFlush E path fi w).2
  | .rename oldpath newpath => (unreliableRename E oldpath newpath w).2
  | .unlink path => (unreliableUnlink E path w).2
  | .remote srv => { w with srv := srv }

open Classical in
/-- The versions after an operation that is carried out. -/
noncomputable def base : DirtyOp → CString → Option Bytes
  | .openFile path fi is_create =>
      Function.update s.base path ((brought E path fi is_create s.w).or (s.base path))
  | .flush path fi =>
      if DupOk E fi s.w then
        Function.update s.base path ((committed E path s.w).or (s.base path))
      else s.base
  | .rename oldpath newpath =>
      if Moves E oldpath s.w ∧ RenamedOnServer E oldpath newpath s.w then
        Function.update (Function.update s.base oldpath none) newpath (s.base oldpath)
      else s.base
  | _ => s.base

/-- Whether the temporary copy of a path is a touched one after an operation that is carried out. -/
def Touched (p : CString) : DirtyOp → Prop
  | .openFile path fi is_create =>
      if p = path then
        ((p ∈ s.touched ∧ brought E path fi is_create s.w = none) ∨ Creates E path fi is_create s.w) ∨
          FinalMakes E path fi.flags (prepared E path fi is_create s.w)
      else p ∈ s.touched
  | .write _ _ _ (some fi) => p ∈ s.touched ∨ Writes E fi s.w p
  | .truncate path length => p ∈ s.touched ∨ (p = path ∧ Truncates E path length s.w)
  | .flush path fi => p ∈ s.touched ∧ (p = path → DupOk E fi s.w → committed E path s.w = none)
  | .rename oldpath newpath =>
      (p ∈ s.touched ∧ ¬ (Moves E oldpath s.w ∧ RenamedOnServer E oldpath newpath s.w)) ∨
        (Moves E oldpath s.w ∧ RenamedOnServer E oldpath newpath s.w ∧
          if p = newpath then oldpath ∈ s.touched else p ≠ oldpath ∧ p ∈ s.touched)
  | _ => p ∈ s.touched

open Classical in
/-- Where an operation leads. One that is not carried out, or put off, changes neither a file nor a mark. -/
noncomputable def next (op : DirtyOp) : Tracked :=
  if E.injected = 0 then ⟨op.effect E s.w, op.base E s, {p | op.Touched E s p}⟩
  else ⟨op.effect E s.w, s.base, s.touched⟩

/-- What an operation may meet on paths of the set. -/
def Tidy (paths : Set CString) (w : World) (touched : Set CString) : DirtyOp → Prop
  | .openFile path fi is_create => OpenTidy E path fi is_create w
  | .write _ _ _ none => False
  | .write path _ _ (some fi) =>
      (Writes E fi w path ∨ path ∈ touched) ∧
        ∀ p ∈ paths, Writes E fi w p → p = path ∨ getHashedPath p ∈ w.cl.dirty_files
  | .truncate path length => TruncateTidy E path length w
  | .flush path fi => DupOk E fi w → FlushTidy E path w
  | .rename oldpath newpath => Moves E oldpath w →
      getHashedPath oldpath ∉ w.cl.dirty_files ∧ getHashedPath newpath ∉ w.cl.dirty_files ∧
        RenamedOnServer E oldpath newpath w
  | .unlink path => getHashedPath path ∈ w.cl.dirty_files → E.fails .deleteFromTempRemove = none
  | .remote _ => True

end DirtyOp

namespace Tracked

/-- An operation on paths of the set. -/
structure Step (paths : Set CString) (s : Tracked) (turn : DirtyTurn) (t : Tracked) : Prop where
  named : ∀ p ∈ turn.op.paths, p ∈ paths
  result : t = turn.op.next turn.E s

/-- A client that has just started: no path is dirty, and there is no temporary copy. -/
structure Start (s : Tracked) : Prop where
  clean : s.w.cl.dirty_files = ∅
  empty : ∀ p, s.w.files.names (getTempPath p) = none
  base : ∀ p, s.base p = none
  touched : s.touched = ∅

def Tidy (paths : Set CString) (s : Tracked) (turn : DirtyTurn) : Prop :=
  turn.E.injected = 0 → turn.op.Tidy turn.E paths s.w s.touched

/-- Temporary copies are not shared, and the marks of the paths agree with them. -/
structure Sound (paths : Set CString) (s : Tracked) : Prop where
  sole : ∀ p, s.w.files.Sole (getTempPath p)
  agrees : ∀ p ∈ paths, Agrees (s.base p) (p ∈ s.touched) p s.w

theorem Start.sound {start : Tracked} (h : Start start) (paths : Set CString) : Sound paths start := by
  refine ⟨fun p i hi => ?_, fun p _ => ⟨fun bytes hbytes _ => ?_, fun _ hmem => ?_⟩⟩
  · rw [h.empty p] at hi
    cases hi
  · rw [tempAt, Fs.find_eq_none_iff.mpr (h.empty p)] at hbytes
    cases hbytes
  · rw [h.clean] at hmem
    exact absurd hmem (Finset.notMem_empty _)

variable {paths : Set CString} {s t : Tracked} {path : CString} {E : Env}

/-- An operation on one path leaves the others as they were. -/
theorem Sound.onPath (hs : Sound paths s) (hcol : NoCollision paths) (hpath : path ∈ paths)
    (hw : World.Concerns path s.w t.w) (hself : Agrees (t.base path) (path ∈ t.touched) path t.w)
    (hbase : ∀ q, q ≠ path → t.base q = s.base q)
    (htouched : ∀ q, q ≠ path → (q ∈ t.touched ↔ q ∈ s.touched)) : Sound paths t := by
  refine ⟨fun p => hw.sole _ (hs.sole p), fun p hp => ?_⟩
  by_cases hne : p = path
  · exact hne ▸ hself
  · have hhash : getHashedPath p ≠ getHashedPath path := fun heq => hne (hcol.hashed hp hpath heq)
    have hkeep := (hs.agrees p hp).of_concerns hw hhash (hs.sole p)
    rw [hbase p hne]
    exact ⟨hkeep.changed, fun hnot => hkeep.untouched fun hmem => hnot ((htouched p hne).mpr hmem)⟩

/-- An operation that leaves the files and the marks alone. -/
theorem Sound.of_same (hs : Sound paths s) {w : World} (hsame : World.Same s.w w) :
    Sound paths ⟨w, s.base, s.touched⟩ :=
  ⟨fun p => hsame.files ▸ hs.sole p, fun p hp => (hs.agrees p hp).of_same hsame⟩

/-- What is not carried out is at most put into the queue. -/
theorem same_of_injected (hinjected : E.injected ≠ 0) (op : DirtyOp) (w : World) :
    ∃ srv queue, op.effect E w = { w with srv := srv, cl := { w.cl with op_queue := queue } } := by
  cases op with
  | openFile path fi is_create =>
      refine ⟨w.srv, w.cl.op_queue, ?_⟩
      simp only [DirtyOp.effect, openHandle, hinjected, ne_eq, not_false_eq_true, if_true]
      split_ifs <;> rfl
  | write path buf offset fi =>
      simp only [DirtyOp.effect, unreliableWrite, hinjected, ne_eq, not_false_eq_true, if_true]
      split_ifs
      · exact ⟨w.srv, w.cl.op_queue, rfl⟩
      · exact ⟨w.srv, _, rfl⟩
      · exact ⟨w.srv, w.cl.op_queue, rfl⟩
  | truncate path length => exact ⟨w.srv, w.cl.op_queue, unlessInjected_of_ne hinjected _ w⟩
  | flush path fi =>
      simp only [DirtyOp.effect, unreliableFlush, hinjected, ne_eq, not_false_eq_true, if_true]
      split_ifs
      · exact ⟨w.srv, w.cl.op_queue, rfl⟩
      · exact ⟨w.srv, _, rfl⟩
      · exact ⟨w.srv, w.cl.op_queue, rfl⟩
  | rename oldpath newpath => exact ⟨w.srv, w.cl.op_queue, unlessInjected_of_ne hinjected _ w⟩
  | unlink path => exact ⟨w.srv, w.cl.op_queue, unlessInjected_of_ne hinjected _ w⟩
  | remote srv => exact ⟨srv, w.cl.op_queue, rfl⟩

section Steps

variable (hplain : E.injected = 0)

include hplain

theorem next_plain (op : DirtyOp) :
    op.next E s = ⟨op.effect E s.w, op.base E s, {p | op.Touched E s p}⟩ := by
  unfold DirtyOp.next
  rw [if_pos hplain]

theorem Sound.afterOpen (hs : Sound paths s) (hcol : NoCollision paths) (hpath : path ∈ paths)
    {fi : FuseFileInfo} {is_create : Bool} (htidy : OpenTidy E path fi is_create s.w) :
    Sound paths ((DirtyOp.openFile path fi is_create).next E s) := by
  rw [next_plain hplain]
  have hworld := openHandle_world hplain path fi is_create s.w
  have hopened := (hs.agrees path hpath).afterOpen htidy
  refine hs.onPath hcol hpath ?_ ?_ (fun q hq => Function.update_of_ne hq _ _) fun q hq => ?_
  · show World.Concerns path s.w (openHandle E path fi is_create s.w).2
    rw [hworld]
    exact concerns_Open E path fi is_create s.w
  · simp only [DirtyOp.base, DirtyOp.effect, DirtyOp.Touched, Function.update_self, Set.mem_ofPred_eq,
      if_true, hworld]
    exact hopened
  · simp only [DirtyOp.Touched, Set.mem_ofPred_eq, if_neg hq]

theorem Sound.afterFlush (hs : Sound paths s) (hcol : NoCollision paths) (hpath : path ∈ paths)
    {fi : FuseFileInfo} (htidy : DupOk E fi s.w → FlushTidy E path s.w) (hgrpc : E.Acknowledges) :
    Sound paths ((DirtyOp.flush path fi).next E s) := by
  rw [next_plain hplain]
  have hflush := unreliableFlush_plain (E := E) path fi hplain
  by_cases hdup : DupOk E fi s.w
  · obtain ⟨w₁, hsame, _, hthrough⟩ := flushThrough_of_dupOk path fi hdup
    have hworld : (unreliableFlush E path fi s.w).2 = (AFSClient.flush E path w₁).2 := by
      rw [hflush, hthrough]
    have htidy₁ : FlushTidy E path w₁ := by
      have htidy := htidy hdup
      refine ⟨fun hdirty => htidy.delete (hsame.dirty ▸ hdirty), fun bytes hbytes => ?_⟩
      exact htidy.commit bytes (committed_of_same hsame ▸ hbytes)
    have hflushed := ((hs.agrees path hpath).of_same hsame).afterFlush htidy₁ hgrpc
      (hsame.files ▸ hs.sole path)
    rw [committed_of_same hsame] at hflushed
    refine hs.onPath hcol hpath ?_ ?_ (fun q hq => ?_) fun q hq => ?_
    · show World.Concerns path s.w (unreliableFlush E path fi s.w).2
      rw [hworld]
      exact trans_of (World.Concerns path) (hsame.concerns path) (concerns_flush E path w₁)
    · simp only [DirtyOp.base, DirtyOp.effect, DirtyOp.Touched, Set.mem_ofPred_eq, hworld, hdup,
        forall_const, if_true, Function.update_self]
      exact hflushed
    · simp only [DirtyOp.base, if_pos hdup, Function.update_of_ne hq]
    · simp only [DirtyOp.Touched, Set.mem_ofPred_eq, hq, false_implies, and_true]
  · have hsame : World.Same s.w (unreliableFlush E path fi s.w).2 := by
      obtain ⟨hsame, ⟨hok, _⟩ | ⟨_, hret, _⟩⟩ := dup_close_cases E fi s.w
      · exact absurd hok hdup
      · rw [hflush]
        unfold flushThrough
        simp only [bind_run, hret, if_true]
        exact hsame
    have hkept := hs.of_same hsame
    have heq : ({p | (DirtyOp.flush path fi).Touched E s p} : Set CString) = s.touched := by
      ext p
      simp only [DirtyOp.Touched, Set.mem_ofPred_eq, hdup, false_implies, implies_true, and_true]
    rw [heq, DirtyOp.base, if_neg hdup]
    exact hkept

theorem Sound.afterTruncate (hs : Sound paths s) (hcol : NoCollision paths) (hpath : path ∈ paths)
    {length : Int} (htidy : TruncateTidy E path length s.w) :
    Sound paths ((DirtyOp.truncate path length).next E s) := by
  rw [next_plain hplain]
  have hworld := unreliableTruncate_world hplain path length s.w
  have hcut := (hs.agrees path hpath).afterTruncate htidy
  refine hs.onPath hcol hpath ?_ ?_ (fun _ _ => rfl) fun q hq => ?_
  · show World.Concerns path s.w (unreliableTruncate E path length s.w).2
    rw [hworld]
    unfold posixTruncate
    split_ifs
    · exact (same_failWith EINVAL s.w).concerns path
    · exact concerns_onFile _ (getTempPath_mem_localNames path) s.w
  · simp only [DirtyOp.base, DirtyOp.effect, DirtyOp.Touched, Set.mem_ofPred_eq, true_and, hworld]
    exact hcut
  · simp only [DirtyOp.Touched, Set.mem_ofPred_eq, hq, false_and, or_false]

theorem Sound.afterUnlink (hs : Sound paths s) (hcol : NoCollision paths) (hpath : path ∈ paths)
    (htidy : getHashedPath path ∈ s.w.cl.dirty_files → E.fails .deleteFromTempRemove = none) :
    Sound paths ((DirtyOp.unlink path).next E s) := by
  rw [next_plain hplain]
  have hworld := unreliableUnlink_world hplain path s.w
  refine hs.onPath hcol hpath ?_ ?_ (fun _ _ => rfl) fun _ _ => Iff.rfl
  · show World.Concerns path s.w (unreliableUnlink E path s.w).2
    rw [hworld]
    exact trans_of (World.Concerns path) (concerns_deleteFromTemp E path s.w)
      (concerns_of_cl (unlink_cl E path s.w))
  · show Agrees _ _ path (unreliableUnlink E path s.w).2
    rw [hworld]
    exact (hs.agrees path hpath).afterUnlink htidy

theorem Sound.afterWrite (hs : Sound paths s) (hcol : NoCollision paths) (hpath : path ∈ paths)
    {buf : Bytes} {offset : Nat} {fi : Option FuseFileInfo}
    (htidy : (DirtyOp.write path buf offset fi).Tidy E paths s.w s.touched) :
    Sound paths ((DirtyOp.write path buf offset fi).next E s) := by
  rw [next_plain hplain]
  cases fi with
  | none => exact htidy.elim
  | some fi =>
      obtain ⟨hself, hothers⟩ := htidy
      obtain ⟨hnames, _, hdirty⟩ := posixPwrite_files E fi buf offset s.w
      have hworld : (unreliableWrite E path buf offset (some fi) s.w).2 =
          (markFileDirty path (posixPwrite E .pwrite fi.fh buf offset s.w).2).2 := by
        rw [unreliableWrite_plain path hplain, writeThrough_handle]
      refine ⟨fun p => (hs.sole p).of_names_eq ?_, fun p hp => ?_⟩
      · show (unreliableWrite E path buf offset (some fi) s.w).2.files.names = s.w.files.names
        rw [hworld]
        exact hnames
      · show Agrees (s.base p) (p ∈ s.touched ∨ Writes E fi s.w p) p
          (unreliableWrite E path buf offset (some fi) s.w).2
        rw [hworld]
        have hmarks : ∀ h, h ∈ (markFileDirty path
            (posixPwrite E .pwrite fi.fh buf offset s.w).2).2.cl.dirty_files ↔
              h = getHashedPath path ∨ h ∈ s.w.cl.dirty_files := fun h => by
          rw [markFileDirty, World.setDirty_dirty, Finset.mem_insert, hdirty]
        by_cases hne : p = path
        · subst hne
          exact .of_dirty ((hmarks _).mpr (Or.inl rfl)) hself.symm
        · have hhash : getHashedPath p ≠ getHashedPath path := fun heq => hne (hcol.hashed hp hpath heq)
          by_cases hwrites : Writes E fi s.w p
          · have hmarked := (hothers p hp hwrites).resolve_left hne
            exact .of_dirty ((hmarks _).mpr (Or.inr hmarked)) (Or.inr hwrites)
          · have hkeep : Agrees (s.base p) (p ∈ s.touched) p
                (markFileDirty path (posixPwrite E .pwrite fi.fh buf offset s.w).2).2 :=
              (hs.agrees p hp).of_eq (posixPwrite_tempAt hwrites buf offset)
                ((hmarks _).trans (or_iff_right hhash))
            exact hkeep.touch _

theorem Sound.afterRename (hs : Sound paths s) (hcol : NoCollision paths) {oldpath newpath : CString}
    (hold : oldpath ∈ paths) (hnew : newpath ∈ paths)
    (htidy : (DirtyOp.rename oldpath newpath).Tidy E paths s.w s.touched) :
    Sound paths ((DirtyOp.rename oldpath newpath).next E s) := by
  rw [next_plain hplain]
  have hworld := unreliableRename_world hplain oldpath newpath s.w
  by_cases hmoves : Moves E oldpath s.w
  · obtain ⟨hcleanOld, hcleanNew, hserver⟩ := htidy hmoves
    obtain ⟨hfiles, hdirty⟩ := rename_moves newpath hmoves hcleanOld
    rw [← hworld] at hfiles hdirty
    refine ⟨fun p => ?_, fun p hp => ?_⟩
    · show (unreliableRename E oldpath newpath s.w).2.files.Sole (getTempPath p)
      rw [hfiles]
      by_cases hname : getTempPath p = getTempPath newpath
      · exact hname ▸ Fs.rename_sole_new _ (hs.sole oldpath)
      · exact Fs.rename_sole (hs.sole p) hname
    · show Agrees ((DirtyOp.rename oldpath newpath).base E s p)
        ((DirtyOp.rename oldpath newpath).Touched E s p) p (unreliableRename E oldpath newpath s.w).2
      have htemp : ∀ q, tempAt (unreliableRename E oldpath newpath s.w).2.files q =
          tempAt (s.w.files.rename (getTempPath oldpath) (getTempPath newpath)) q := fun q => by rw [hfiles]
      simp only [DirtyOp.base, DirtyOp.Touched, hmoves, hserver, and_self, not_true_eq_false, and_false,
        false_or, true_and, if_true]
      by_cases hpn : p = newpath
      · subst hpn
        have hagrees := hs.agrees oldpath hold
        rw [Function.update_self]
        refine ⟨fun bytes hbytes hne => ?_, fun _ => hdirty ▸ hcleanNew⟩
        rw [htemp, tempAt, Fs.find_rename_new] at hbytes
        exact absurd (hagrees.changed bytes hbytes hne) hcleanOld
      · by_cases hpo : p = oldpath
        · subst hpo
          obtain ⟨ino, hino⟩ := Option.ne_none_iff_exists'.mp hmoves.2.2
          have hnames : s.w.files.names (getTempPath p) ≠ s.w.files.names (getTempPath newpath) := by
            intro heq
            exact hpn (hcol.temp hnew hp (hs.sole p ino hino _ (heq ▸ hino))).symm
          refine ⟨fun bytes hbytes _ => ?_, fun _ => hdirty ▸ hcleanOld⟩
          rw [htemp, tempAt, Fs.find, Fs.rename, if_neg hnames, Fs.remove_names_self] at hbytes
          cases hbytes
        · rw [Function.update_of_ne hpn, Function.update_of_ne hpo, if_neg hpn]
          have hkeep : Agrees (s.base p) (p ∈ s.touched) p (unreliableRename E oldpath newpath s.w).2 := by
            refine (hs.agrees p hp).of_eq ?_ (by rw [hdirty])
            rw [htemp, tempAt, tempAt, Fs.find_rename_of_ne]
            · exact fun heq => hpo (hcol.temp hp hold heq)
            · exact fun heq => hpn (hcol.temp hp hnew heq)
          exact ⟨hkeep.changed, fun hnot => hkeep.untouched fun hmem => hnot ⟨hpo, hmem⟩⟩
  · obtain ⟨hfiles, hdirty⟩ := rename_stays newpath hmoves
    rw [← hworld] at hfiles hdirty
    refine ⟨fun p => (hs.sole p).of_names_eq (congrArg (·.names) hfiles), fun p hp => ?_⟩
    have hkeep : Agrees (s.base p) (p ∈ s.touched) p (unreliableRename E oldpath newpath s.w).2 :=
      (hs.agrees p hp).of_eq (by rw [hfiles]) (by rw [hdirty])
    simp only [DirtyOp.base, DirtyOp.Touched, hmoves, false_and, not_false_eq_true, and_true, or_false,
      if_false]
    exact hkeep

end Steps

variable {turn : DirtyTurn}

/-- A tidy operation keeps the marks right. -/
theorem Sound.step (hs : Sound paths s) (hcol : NoCollision paths) (hgrpc : turn.E.Acknowledges)
    (htidy : Tidy paths s turn) (hstep : Step paths s turn t) : Sound paths t := by
  obtain ⟨hnamed, rfl⟩ := hstep
  by_cases hplain : turn.E.injected = 0
  · have htidy := htidy hplain
    cases hop : turn.op with
    | openFile path fi is_create =>
        rw [hop] at hnamed htidy
        exact hs.afterOpen hplain hcol (hnamed path List.mem_cons_self) htidy
    | write path buf offset fi =>
        rw [hop] at hnamed htidy
        exact hs.afterWrite hplain hcol (hnamed path List.mem_cons_self) htidy
    | truncate path length =>
        rw [hop] at hnamed htidy
        exact hs.afterTruncate hplain hcol (hnamed path List.mem_cons_self) htidy
    | flush path fi =>
        rw [hop] at hnamed htidy
        exact hs.afterFlush hplain hcol (hnamed path List.mem_cons_self) htidy hgrpc
    | rename oldpath newpath =>
        rw [hop] at hnamed htidy
        exact hs.afterRename hplain hcol (hnamed oldpath List.mem_cons_self)
          (hnamed newpath (List.mem_cons_of_mem _ List.mem_cons_self)) htidy
    | unlink path =>
        rw [hop] at hnamed htidy
        exact hs.afterUnlink hplain hcol (hnamed path List.mem_cons_self) htidy
    | remote srv =>
        rw [next_plain hplain]
        exact ⟨hs.sole, fun p hp => (hs.agrees p hp).of_cl rfl⟩
  · obtain ⟨srv, queue, heffect⟩ := same_of_injected hplain turn.op s.w
    unfold DirtyOp.next
    rw [if_neg hplain, heffect]
    exact ⟨hs.sole, fun p hp => (hs.agrees p hp).of_eq rfl Iff.rfl⟩

/-- In a run of tidy operations the dirty set has every path whose temporary copy is not the version last
fetched or committed, and no path whose copy was not touched since. -/
theorem dirty_exact_of_tidy (hcol : NoCollision paths) {start : Tracked} (hstart : Start start)
    {trace : List (Tracked × DirtyTurn)} (hrun : Run (Step paths) start trace s)
    (hgrpc : Guarded (fun _ turn => turn.E.Acknowledges) trace) (htidy : Guarded (Tidy paths) trace)
    (hvisit : Visits trace s t) {p : CString} (hp : p ∈ paths) :
    (∀ bytes, tempAt t.w.files p = some bytes → t.base p ≠ some bytes →
        getHashedPath p ∈ t.w.cl.dirty_files) ∧
      (p ∉ t.touched → getHashedPath p ∉ t.w.cl.dirty_files) := by
  have hboth : Guarded (fun s turn => turn.E.Acknowledges ∧ Tidy paths s turn) trace :=
    fun entry hmem => ⟨hgrpc entry hmem, htidy entry hmem⟩
  have hsound : Sound paths t := by
    refine Run.visits (Sound paths) (fun trace' t' hrun' hguard' => ?_) hrun hboth hvisit
    exact hrun'.guarded_invariant (Sound paths) (hstart.sound paths)
      (fun s turn t hs hguard hstep => hs.step hcol hguard.1 hguard.2 hstep) hguard'
  exact ⟨(hsound.agrees p hp).changed, (hsound.agrees p hp).untouched⟩

section Sample

omit [Sha256] in
theorem next_w [Sha256] (E : Env) (s : Tracked) (op : DirtyOp) : (op.next E s).w = op.effect E s.w := by
  unfold DirtyOp.next
  split_ifs <;> rfl

/-- A client that has just started, and what the server has. -/
def sampleTracked (srv : Files) : Tracked where
  w := { srv := ⟨srv, []⟩, cl := ⟨.empty ⟨[], default, default⟩, [], ∅, []⟩, errno := 0 }
  base _ := none
  touched := ∅

theorem sampleTracked_start (srv : Files) : Start (sampleTracked srv) :=
  ⟨rfl, fun _ => rfl, fun _ => rfl, rfl⟩

omit [Sha256] in
/-- `/f` is fetched and cut to no bytes: its copy is not what was fetched, and it is not marked. -/
theorem truncated_not_marked :
    letI := sampleSha256
    let start := sampleTracked ((Fs.empty ⟨[], default, default⟩).create
      (getServerPath sampleF.bytes) ⟨ascii "data", ⟨1, 0⟩, default⟩)
    let s := (DirtyOp.openFile sampleF ⟨O_RDWR, 0⟩ false).next (.smooth 5) start
    let t := (DirtyOp.truncate sampleF 0).next (.smooth 6) s
    Start start ∧
      Run (Step {sampleF}) start [(s, ⟨.truncate sampleF 0, .smooth 6⟩),
        (start, ⟨.openFile sampleF ⟨O_RDWR, 0⟩ false, .smooth 5⟩)] t ∧
      t.base sampleF = some (ascii "data") ∧ tempAt t.w.files sampleF = some [] ∧
      getHashedPath sampleF ∉ t.w.cl.dirty_files := by
  let _ := sampleSha256
  intro start s t
  have hw : t.w = (DirtyOp.truncate sampleF 0).effect (.smooth 6)
      ((DirtyOp.openFile sampleF ⟨O_RDWR, 0⟩ false).effect (.smooth 5) start.w) := by
    rw [next_w, next_w]
  have hbase : t.base sampleF = some (ascii "data") := by
    have hbrought : brought (.smooth 5) sampleF ⟨O_RDWR, 0⟩ false start.w = some (ascii "data") := by
      decide
    have hs : s.base sampleF = some (ascii "data") := by
      rw [show s = _ from next_plain rfl _]
      simp only [DirtyOp.base, Function.update_self, hbrought, Option.some_or]
    rw [show t = _ from next_plain rfl _]
    exact hs
  have hopen : Step {sampleF} start ⟨.openFile sampleF ⟨O_RDWR, 0⟩ false, .smooth 5⟩ s :=
    ⟨fun p hp => List.mem_singleton.mp hp, rfl⟩
  have hcut : Step {sampleF} s ⟨.truncate sampleF 0, .smooth 6⟩ t :=
    ⟨fun p hp => List.mem_singleton.mp hp, rfl⟩
  refine ⟨sampleTracked_start _, (Run.nil.cons hopen).cons hcut, hbase, ?_, ?_⟩
  · rw [hw]
    decide
  · rw [hw]
    decide

omit [Sha256] in
/-- `/f` is created and written, and the flush commits it: its mark is gone. -/
theorem dirty_exact_of_tidy_sample :
    letI := sampleSha256
    let start := sampleTracked (.empty ⟨[], default, default⟩)
    let s := (DirtyOp.openFile sampleF ⟨O_RDWR ||| O_CREAT, 0⟩ true).next (.smooth 5) start
    let t := (DirtyOp.write sampleF (ascii "new") 0 (some ⟨O_RDWR, 0⟩)).next (.smooth 6) s
    let u := (DirtyOp.flush sampleF ⟨O_RDWR, 0⟩).next (.smooth 7) t
    sampleF ∉ u.touched ∧ getHashedPath sampleF ∉ u.w.cl.dirty_files := by
  let _ := sampleSha256
  intro start s t u
  have hcol : NoCollision {sampleF} := Set.injOn_singleton _ _
  have hs : s.w = (DirtyOp.openFile sampleF ⟨O_RDWR ||| O_CREAT, 0⟩ true).effect (.smooth 5) start.w :=
    next_w _ _ _
  have ht : t.w = (DirtyOp.write sampleF (ascii "new") 0 (some ⟨O_RDWR, 0⟩)).effect (.smooth 6)
      ((DirtyOp.openFile sampleF ⟨O_RDWR ||| O_CREAT, 0⟩ true).effect (.smooth 5) start.w) :=
    (next_w _ _ _).trans (by rw [hs])
  have hopen : Step {sampleF} start ⟨.openFile sampleF ⟨O_RDWR ||| O_CREAT, 0⟩ true, .smooth 5⟩ s :=
    ⟨fun p hp => List.mem_singleton.mp hp, rfl⟩
  have hwrite : Step {sampleF} s
      ⟨.write sampleF (ascii "new") 0 (some ⟨O_RDWR, 0⟩), .smooth 6⟩ t :=
    ⟨fun p hp => List.mem_singleton.mp hp, rfl⟩
  have hflush : Step {sampleF} t ⟨.flush sampleF ⟨O_RDWR, 0⟩, .smooth 7⟩ u :=
    ⟨fun p hp => List.mem_singleton.mp hp, rfl⟩
  have hrun := ((Run.nil.cons hopen).cons hwrite).cons hflush
  have htidyOpen : Tidy {sampleF} start
      ⟨.openFile sampleF ⟨O_RDWR ||| O_CREAT, 0⟩ true, .smooth 5⟩ := by
    have hverdict : verdict (.smooth 5) sampleF ⟨O_RDWR ||| O_CREAT, 0⟩ true start.w = 3 := by decide
    have hbrought : brought (.smooth 5) sampleF ⟨O_RDWR ||| O_CREAT, 0⟩ true start.w = none := by decide
    refine fun _ => ⟨fun buf hbuf => ?_, fun _ => Or.inl rfl, fun hne => absurd hverdict hne, Or.inl rfl⟩
    rw [hbrought] at hbuf
    cases hbuf
  have htidyWrite : Tidy {sampleF} s
      ⟨.write sampleF (ascii "new") 0 (some ⟨O_RDWR, 0⟩), .smooth 6⟩ := by
    refine fun _ => ⟨Or.inl ?_, fun p hp _ => Or.inl (Set.mem_singleton_iff.mp hp)⟩
    rw [hs]
    exact ⟨0, by decide, rfl, ⟨0, O_RDWR ||| O_CREAT⟩, by decide, rfl, by decide⟩
  have htidyFlush : Tidy {sampleF} t ⟨.flush sampleF ⟨O_RDWR, 0⟩, .smooth 7⟩ :=
    fun _ _ => ⟨fun _ h => (nomatch h), fun _ _ => ⟨rfl, rfl⟩⟩
  have hcommitted : committed (.smooth 7) sampleF t.w ≠ none := by
    rw [ht]
    decide
  have hdup : DupOk (.smooth 7) ⟨O_RDWR, 0⟩ t.w := by
    rw [ht]
    exact ⟨rfl, by decide⟩
  have huntouched : sampleF ∉ u.touched := by
    rw [show u = _ from next_plain rfl _]
    exact fun h => hcommitted (h.2 rfl hdup)
  exact ⟨huntouched, (dirty_exact_of_tidy hcol (sampleTracked_start _) hrun
    (.cons (fun _ _ => rfl) (.cons (fun _ _ => rfl) (.cons (fun _ _ => rfl) (guarded_nil _))))
    (.cons htidyFlush (.cons htidyWrite (.cons htidyOpen (guarded_nil _)))) (Or.inl rfl) rfl).2
      huntouched⟩

end Sample

end Tracked

end Bnfs
