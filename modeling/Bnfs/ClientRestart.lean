import Bnfs.ClientLife
import Bnfs.ClientTwinCalls

/-! A client that is restarted, next to the same client that is not: the same operations are asked of both, and
nothing fails. What the temporary directory held is gone, so an operation that only looks whether a copy is
there, or uses one that is no longer what the server has, tells the two apart; as long as none is asked for,
both give the same answers. -/

namespace Bnfs

open FileSystem Programs Runs

variable [Sha256]

omit [Sha256] in
theorem cleanTempDir_names_none {listing : Option (List Dirent)} {files : Files} {name : Bytes}
    (h : files.names name = none) : (cleanTempDir listing files).names name = none := by
  cases listing with
  | none => exact h
  | some entries =>
      rw [cleanTempDir]
      induction entries generalizing files with
      | nil => exact h
      | cons entry entries ih =>
          refine ih ?_
          dsimp only
          split_ifs
          · by_cases heq : name = tempDir ++ ascii "/" ++ entry.d_name
            · rw [heq]
              exact Fs.remove_names_self files _
            · rw [Fs.remove_names_of_ne files heq]
              exact h
          · exact h

/-- `readdir` yields every temporary copy, as a regular file. -/
def ListsCopies (listing : Option (List Dirent)) (files : Files) : Prop :=
  ∃ entries, listing = some entries ∧ ∀ path, files.names (getTempPath path) ≠ none →
    ⟨getHashedPath path, DT_REG⟩ ∈ entries

/-- Then no temporary copy is left. -/
theorem cleanTempDir_empties {listing : Option (List Dirent)} {files : Files}
    (h : ListsCopies listing files) : ∀ n ∈ tempNames, (cleanTempDir listing files).names n = none := by
  obtain ⟨entries, rfl, hall⟩ := h
  rintro _ ⟨path, rfl⟩
  by_cases hname : files.names (getTempPath path) = none
  · exact cleanTempDir_names_none hname
  · obtain ⟨before, after, rfl⟩ := List.append_of_mem (hall path hname)
    rw [cleanTempDir, List.foldl_append, List.foldl_cons, if_pos rfl]
    exact @cleanTempDir_names_none (some after) _ _ (Fs.remove_names_self _ (getTempPath path))

/-- A client and the handles FUSE was given since the restart, by a number both clients share. -/
structure Session where
  w : World
  handles : Nat → Option FuseFileInfo

/-- An operation. Where it works on a handle it is given the number of it. -/
inductive FileOp where
  | openFile (key : Nat) (path : CString) (fi : FuseFileInfo) (is_create : Bool)
  | read (key : Nat) (path : CString) (size offset : Nat)
  | write (key : Nat) (path : CString) (buf : Bytes) (offset : Nat)
  | flush (key : Nat) (path : CString)
  | rename (oldpath newpath : CString)
  | unlink (path : CString)
  | truncate (path : CString) (length : Int)
  | chmod (path : CString) (mode : Int)
  deriving DecidableEq

namespace FileOp

variable (E : Env) (s : Session)

/-- A call on the handle with a number, if there is one. -/
def onHandle (key : Nat) (call : FuseFileInfo → Prog (Int × Bytes)) : Option (Int × Bytes) × Session :=
  match s.handles key with
  | none => (none, s)
  | some fi => (some (call fi s.w).1, { s with w := (call fi s.w).2 })

/-- A call on a path. -/
def onPath (call : Prog Int) : Option (Int × Bytes) × Session :=
  (some ((call s.w).1, []), { s with w := (call s.w).2 })

/-- What the operation gives, the bytes of a read included, and what it leads to. -/
def run : FileOp → Option (Int × Bytes) × Session
  | .openFile key path fi is_create =>
      (some ((openHandle E path fi is_create s.w).1.1, []),
        { w := (openHandle E path fi is_create s.w).2
          handles :=
            if (openHandle E path fi is_create s.w).1.1 = 0 then
              Function.update s.handles key (some (openHandle E path fi is_create s.w).1.2)
            else s.handles })
  | .read key path size offset => onHandle s key fun fi => unreliableRead E path size offset (some fi)
  | .write key path buf offset => onHandle s key fun fi => do
      let ret ← unreliableWrite E path buf offset (some fi)
      return (ret, [])
  | .flush key path => onHandle s key fun fi => do
      let ret ← unreliableFlush E path fi
      return (ret, [])
  | .rename oldpath newpath => onPath s (unreliableRename E oldpath newpath)
  | .unlink path => onPath s (unreliableUnlink E path)
  | .truncate path length => onPath s (unreliableTruncate E path length)
  | .chmod path mode => onPath s (unreliableChmod E path mode)

end FileOp

/-- Where a copy is there, the calls of the operation need to be let in for this. -/
def FileOp.Needs (E : Env) (s : Session) (name : Bytes) (access : Access) : FileOp → Prop
  | .openFile _ path fi is_create =>
      (access = .read ∧ name ∈ localNames path) ∨ (name = getTempPath path ∧ fi.flags.asks access) ∨
        (access = .write ∧ name ∈ localNames path ∧
          (CreatesLocally E path fi.flags is_create s.w ∨ ¬ TempUsed E path s.w))
  | .flush key path => s.handles key ≠ none ∧ ((access = .read ∧ name = getTempPath path) ∨
      (name ∈ localNames path ∧ getHashedPath path ∈ s.w.cl.dirty_files))
  | .rename oldpath _ => access = .read ∧ name = getCachePath oldpath
  | .truncate path length => access = .write ∧ name = getTempPath path ∧ 0 ≤ length
  | .chmod path _ => access = .own ∧ name = getTempPath path
  | .read .. | .write .. | .unlink _ => False

/-- The copies that are there let the process in for all of it. -/
def FileOp.Permitted (cred : Credentials) (E : Env) (s : Session) (op : FileOp) : Prop :=
  ∀ name access ino, op.Needs E s name access → s.w.files.names name = some ino →
    (s.w.files.inode ino).attr.permits cred access = true

/-- What is asked of both clients, and how its calls turn out in the one that was not restarted and in the other. -/
structure Asked where
  op : FileOp
  E : Env
  E' : Env

namespace Asked

/-- The two clients, the one that was not restarted first. -/
abbrev Pair := Session × Session

/-- Both do the operation. -/
def Step (s : Pair) (asked : Asked) (t : Pair) : Prop :=
  t = ((asked.op.run asked.E s.1).2, (asked.op.run asked.E' s.2).2)

/-- Both give the same answer. -/
def SameAnswer (s : Pair) (asked : Asked) : Prop :=
  (asked.op.run asked.E' s.2).1 = (asked.op.run asked.E s.1).1

/-- Server and network do not fail, nothing is injected, and the two clients may only differ in which of their calls
fail. -/
structure Undisturbed (_ : Pair) (asked : Asked) : Prop where
  server : ∀ site, site.onServer = true → asked.E.fails site = none ∧ asked.E'.fails site = none
  rpcs : ∀ r, asked.E.rpc r = .answered
  downloads : asked.E.download = ⟨true, none, true⟩
  uploads : asked.E.upload = ⟨true, none, true⟩
  writes : ∀ n, asked.E.writeOk n = true
  plain : asked.E.injected = 0
  alike : asked.E' = { asked.E with fails := asked.E'.fails, fails_pos := asked.E'.fails_pos }

/-- A call on the client's machine fails only where a copy does not let the process in, and a `pwrite` takes all bytes. -/
structure OnlyRefused (cred : Credentials) (s : Pair) (asked : Asked) : Prop where
  first : ∀ site, site.onServer = false → asked.E.fails site ≠ none → ¬ asked.op.Permitted cred asked.E s.1
  second : ∀ site, site.onServer = false → asked.E'.fails site ≠ none → ¬ asked.op.Permitted cred asked.E' s.2
  whole : asked.E.taken = none

/-- A temporary copy of the path that the first has, the second has too. -/
def CopyAlike (path : CString) (s : Pair) : Prop :=
  s.1.w.files.names (getTempPath path) ≠ none → s.2.w.files.names (getTempPath path) ≠ none

/-- The operation finds the local copies in the two clients alike, as far as it looks at them. -/
def CopiesAlike (s : Pair) (asked : Asked) : Prop :=
  match asked.op with
  | .openFile _ path fi is_create => OpensAlike asked.E path fi.flags is_create s.1.w s.2.w
  | .flush key path => s.1.handles key ≠ none → FlushesAlike path s.1.w s.2.w
  | .rename oldpath _ => RenamesAlike oldpath s.1.w s.2.w
  | .truncate path length => 0 ≤ length → CopyAlike path s
  | .chmod path _ => CopyAlike path s
  | _ => True

/-- The operation finds the copies alike, and those that are there let it in. -/
structure FindsAlike (cred : Credentials) (s : Pair) (asked : Asked) : Prop where
  copies : CopiesAlike s asked
  first : asked.op.Permitted cred asked.E s.1
  second : asked.op.Permitted cred asked.E' s.2

/-- Then nothing fails in either client. -/
theorem FindsAlike.reliable {cred : Credentials} {s : Pair} {asked : Asked} (h : FindsAlike cred s asked)
    (hquiet : Undisturbed s asked) (hlocal : OnlyRefused cred s asked) :
    asked.E.Reliable ∧ asked.E' = asked.E := by
  have hfirst : ∀ site, asked.E.fails site = none := fun site => by
    cases hsite : site.onServer with
    | true => exact (hquiet.server site hsite).1
    | false => exact by_contra fun hfails => hlocal.first site hsite hfails h.first
  have hsecond : ∀ site, asked.E'.fails site = none := fun site => by
    cases hsite : site.onServer with
    | true => exact (hquiet.server site hsite).2
    | false => exact by_contra fun hfails => hlocal.second site hsite hfails h.second
  refine ⟨⟨hfirst, hquiet.rpcs, hquiet.downloads, hquiet.uploads, hquiet.writes, hlocal.whole, hquiet.plain⟩, ?_⟩
  have hsame : asked.E'.fails = asked.E.fails := funext fun site => (hsecond site).trans (hfirst site).symm
  rw [hquiet.alike]
  cases hE : asked.E
  rw [hE] at hsame
  simp only [hsame]

variable {link : Nat → Nat → Prop}

/-- A number has a handle in both or in neither, and the two handles of one number are on linked files. -/
structure SameHandles (link : Nat → Nat → Prop) (s : Pair) : Prop where
  none_iff : ∀ key, s.1.handles key = none ↔ s.2.handles key = none
  same : ∀ key fi fi', s.1.handles key = some fi → s.2.handles key = some fi' →
    World.SameHandle link s.1.w s.2.w fi fi'

/-- The two clients are twins. -/
def Paired (s : Pair) : Prop := ∃ link, World.Twins link s.1.w s.2.w ∧ SameHandles link s

section Step

variable {E : Env} {s : Pair}

theorem SameHandles.keep (h : SameHandles link s) {link' : Nat → Nat → Prop} {w w' : World}
    (hkeep : World.Keep link link' s.1.w s.2.w w w') :
    SameHandles link' (⟨w, s.1.handles⟩, ⟨w', s.2.handles⟩) where
  none_iff := h.none_iff
  same key fi fi' hfi hfi' := hkeep.handle (h.same key fi fi' hfi hfi')

omit [Sha256] in
/-- The handle that is opened replaces the one that had the number. -/
theorem SameHandles.update {handles handles' : Nat → Option FuseFileInfo} {w w' : World}
    (h : SameHandles link (⟨w, handles⟩, ⟨w', handles'⟩)) (key : Nat) {fi fi' : FuseFileInfo}
    (hfi : World.SameHandle link w w' fi fi') :
    SameHandles link (⟨w, Function.update handles key (some fi)⟩,
      ⟨w', Function.update handles' key (some fi')⟩) := by
  refine ⟨fun other => ?_, fun other fi₁ fi₁' h₁ h₁' => ?_⟩
  · by_cases heq : other = key
    · simp only [heq, Function.update_self, reduceCtorEq]
    · simp only [Function.update_of_ne heq]
      exact h.none_iff other
  · by_cases heq : other = key
    · subst heq
      simp only [Function.update_self, Option.some.injEq] at h₁ h₁'
      subst h₁ h₁'
      exact hfi
    · simp only [Function.update_of_ne heq] at h₁ h₁'
      exact h.same other fi₁ fi₁' h₁ h₁'

/-- A call on a path. -/
theorem SameHandles.onPath (hhandles : SameHandles link s) {call : Prog Int}
    (hcall : (call s.2.w).1 = (call s.1.w).1 ∧
      World.Keep link link s.1.w s.2.w (call s.1.w).2 (call s.2.w).2) :
    (FileOp.onPath s.2 call).1 = (FileOp.onPath s.1 call).1 ∧
      Paired ((FileOp.onPath s.1 call).2, (FileOp.onPath s.2 call).2) := by
  obtain ⟨hret, hkeep⟩ := hcall
  refine ⟨?_, link, hkeep.twins, hhandles.keep hkeep⟩
  unfold FileOp.onPath
  rw [hret]

/-- A call on a handle. -/
theorem SameHandles.onHandle (hhandles : SameHandles link s) (htwins : World.Twins link s.1.w s.2.w)
    {key : Nat} {call : FuseFileInfo → Prog (Int × Bytes)}
    (hcall : ∀ fi fi', s.1.handles key = some fi → World.SameHandle link s.1.w s.2.w fi fi' →
      (call fi' s.2.w).1 = (call fi s.1.w).1 ∧
        ∃ link', World.Keep link link' s.1.w s.2.w (call fi s.1.w).2 (call fi' s.2.w).2) :
    (FileOp.onHandle s.2 key call).1 = (FileOp.onHandle s.1 key call).1 ∧
      Paired ((FileOp.onHandle s.1 key call).2, (FileOp.onHandle s.2 key call).2) := by
  have hkey := hhandles.none_iff key
  unfold FileOp.onHandle
  cases hfi : s.1.handles key with
  | none =>
      rw [hkey.mp hfi]
      exact ⟨rfl, link, htwins, hhandles⟩
  | some fi =>
      have hsome : s.2.handles key ≠ none := fun hnone => nomatch hfi.symm.trans (hkey.mpr hnone)
      obtain ⟨fi', hfi'⟩ := Option.ne_none_iff_exists'.mp hsome
      obtain ⟨hret, link', hkeep⟩ := hcall fi fi' hfi (hhandles.same key fi fi' hfi hfi')
      rw [hfi']
      exact ⟨congrArg some hret, link', hkeep.twins, hhandles.keep hkeep⟩

/-- As long as it finds the copies alike, an operation gives the same answer in both and leaves them paired. -/
theorem Paired.step {asked : Asked} (h : Paired s) (hrel : asked.E.Reliable) (hsame : asked.E' = asked.E)
    (halike : CopiesAlike s asked) :
    SameAnswer s asked ∧
      Paired ((asked.op.run asked.E s.1).2, (asked.op.run asked.E' s.2).2) := by
  obtain ⟨link, htwins, hhandles⟩ := h
  obtain ⟨op, E, E'⟩ := asked
  obtain rfl : E' = E := hsame
  cases op with
  | openFile key path fi is_create =>
      obtain ⟨hret, hret', link', hkeep, hsame⟩ := htwins.openHandle hrel halike
      have hopened := (hhandles.keep hkeep).update key hsame
      refine ⟨?_, link', ?_⟩
      · show some _ = some _
        rw [hret, hret']
      · simp only [FileOp.run, if_pos hret, if_pos hret']
        exact ⟨hkeep.twins, hopened⟩
  | read key path size offset =>
      refine hhandles.onHandle htwins fun fi fi' _ hfi => ?_
      obtain ⟨hret, hkeep⟩ := htwins.read hrel hfi path size offset
      exact ⟨hret, link, hkeep⟩
  | write key path buf offset =>
      refine hhandles.onHandle htwins fun fi fi' _ hfi => ?_
      obtain ⟨hret, hkeep⟩ := htwins.write hrel hfi path buf offset
      exact ⟨congrArg (·, []) hret, link, hkeep⟩
  | flush key path =>
      refine hhandles.onHandle htwins fun fi fi' hsome hfi => ?_
      have hflush : FlushesAlike path s.1.w s.2.w := halike (hsome ▸ Option.some_ne_none fi)
      obtain ⟨hret, hkeep⟩ := htwins.flush hrel hfi hflush
      exact ⟨congrArg (·, []) hret, hkeep⟩
  | rename oldpath newpath => exact hhandles.onPath (htwins.rename hrel newpath halike)
  | unlink path => exact hhandles.onPath (htwins.unlink hrel path)
  | truncate path length => exact hhandles.onPath (htwins.truncate hrel halike)
  | chmod path mode => exact hhandles.onPath (htwins.chmod hrel mode halike)

end Step

section Sample

end Sample

end Asked

end Bnfs
