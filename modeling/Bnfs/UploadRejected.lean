import Bnfs.UploadBroken

/-! The uploads that `PutFile` rejects, and what is left of them. The handler takes nothing back: once the temporary
file was opened it stays if the rename fails, and once it was renamed the new bytes stay if `lstat` fails. So the
tree is as it was only where nothing was written, or where what was written is what was there. -/

namespace Bnfs

open FileSystem

namespace FileServer

/-- The bytes under a name. -/
def bytesAt (files : Files) (name : Bytes) : Option Bytes := (files.find name).map (·.content)

/-- The names `readdir` has of a directory. -/
def entriesOf (files : Files) (dir : Bytes) : Set Bytes :=
  {entry | entry ≠ [] ∧ 47 ∉ entry ∧ files.names (dir ++ ascii "/" ++ entry) ≠ none}

/-- The same names, under each the same bytes, and in each directory the same entries. -/
structure SameTree (files files' : Files) : Prop where
  names : ∀ name, files'.names name = none ↔ files.names name = none
  bytes : ∀ name, bytesAt files' name = bytesAt files name
  entries : ∀ dir, entriesOf files' dir = entriesOf files dir

theorem bytesAt_eq_none_iff {files : Files} {name : Bytes} : bytesAt files name = none ↔ files.names name = none := by
  rw [bytesAt, Option.map_eq_none_iff, Fs.find_eq_none_iff]

theorem bytesAt_of_names {files : Files} {name : Bytes} {ino : Nat} (h : files.names name = some ino) :
    bytesAt files name = some (files.inode ino).content := by
  rw [bytesAt, Fs.find_of_names h, Option.map_some]

theorem bytesAt_of_dated {files files' : Files} {name : Bytes} (h : dated files' name = dated files name) :
    bytesAt files' name = bytesAt files name := by
  rw [bytesAt, find_content, h, ← find_content, bytesAt]

/-- The bytes say it all: a name without bytes is no name. -/
theorem sameTree_iff {files files' : Files} :
    SameTree files files' ↔ ∀ name, bytesAt files' name = bytesAt files name := by
  constructor
  · exact SameTree.bytes
  · intro h
    have hnames : ∀ name, files'.names name = none ↔ files.names name = none := fun name => by
      rw [← bytesAt_eq_none_iff, h name, bytesAt_eq_none_iff]
    refine ⟨hnames, h, fun dir => ?_⟩
    ext entry
    simp only [entriesOf, Set.mem_ofPred_eq, ne_eq, hnames]

section Rejected

variable (E : Env) (request : PutFileReq) (rest : List PutFileReq)

/-- The temporary file was written: the tree is as it was if it was there with these bytes. -/
theorem written_same_iff (files : Files) (hopen : E.fails .putFileOpen = none) :
    (∀ name, bytesAt (writeUpload E (request :: rest) files) name = bytesAt files name) ↔
      bytesAt files (uploadTemp E request.path) = some (landed E 0 (rest.map (·.contents))) := by
  obtain ⟨ino, hname, hcontent, hother, hino, hsame⟩ := writeUpload_of_opened E request rest files hopen
  constructor
  · intro h
    rw [← h, bytesAt_of_names hname, hcontent]
  · intro htemp name
    by_cases heq : name = uploadTemp E request.path
    · rw [heq, htemp, bytesAt_of_names hname, hcontent]
    · cases hn : files.names name with
      | none => rw [bytesAt_eq_none_iff.mpr hn, bytesAt_eq_none_iff.mpr ((hother name heq).trans hn)]
      | some j =>
          rw [bytesAt_of_names hn, bytesAt_of_names ((hother name heq).trans hn)]
          by_cases hj : j = ino
          · -- another name of the temporary file: it had the same bytes
            have hold : files.names (uploadTemp E request.path) = some ino := by
              refine hino.resolve_right fun ⟨hnone, _⟩ => ?_
              rw [bytesAt_eq_none_iff.mpr hnone] at htemp
              cases htemp
            rw [bytesAt_of_names hold] at htemp
            rw [hj, hcontent, htemp]
          · rw [hsame j hj]

/-- A new temporary file touches no other name. -/
theorem written_others (files : Files) (hopen : E.fails .putFileOpen = none)
    (hnone : files.names (uploadTemp E request.path) = none) {name : Bytes}
    (hne : name ≠ uploadTemp E request.path) :
    bytesAt (writeUpload E (request :: rest) files) name = bytesAt files name := by
  obtain ⟨ino, _, _, hother, hino, hsame⟩ := writeUpload_of_opened E request rest files hopen
  obtain ⟨_, hnew⟩ := hino.resolve_left fun hold => by rw [hnone] at hold; cases hold
  cases hn : files.names name with
  | none => rw [bytesAt_eq_none_iff.mpr hn, bytesAt_eq_none_iff.mpr ((hother name hne).trans hn)]
  | some j =>
      have hlt := files.named_lt name j hn
      rw [bytesAt_of_names hn, bytesAt_of_names ((hother name hne).trans hn), hsame j (by omega)]

/-- A file moved from a name to one of another file: the tree is as it was before some other time if the first name
was free then, the second had the bytes, and nothing else has changed. -/
theorem renamed_same_iff {files written : Files} {temp target : Bytes}
    (hlinked : written.names temp ≠ written.names target) :
    (∀ name, bytesAt (written.rename temp target) name = bytesAt files name) ↔
      files.names temp = none ∧ bytesAt files target = bytesAt written temp ∧
        ∀ name, name ≠ temp → name ≠ target → bytesAt written name = bytesAt files name := by
  have hold : bytesAt (written.rename temp target) temp = none :=
    bytesAt_eq_none_iff.mpr (Fs.rename_names_old hlinked)
  have hnew : bytesAt (written.rename temp target) target = bytesAt written temp := by
    rw [bytesAt, Fs.find_rename_new, bytesAt]
  have hother : ∀ name, name ≠ temp → name ≠ target →
      bytesAt (written.rename temp target) name = bytesAt written name := fun name htemp htarget => by
    rw [bytesAt, Fs.find_rename_of_ne written htemp htarget, bytesAt]
  constructor
  · intro h
    refine ⟨bytesAt_eq_none_iff.mp ((h temp).symm.trans hold), (h target).symm.trans hnew, ?_⟩
    exact fun name htemp htarget => (hother name htemp htarget).symm.trans (h name)
  · rintro ⟨hnone, hbytes, hrest⟩ name
    by_cases htemp : name = temp
    · rw [htemp, hold, bytesAt_eq_none_iff.mpr hnone]
    · by_cases htarget : name = target
      · rw [htarget, hnew, hbytes]
      · rw [hother name htemp htarget, hrest name htemp htarget]

/-- The request is not rejected, or it leaves no trace: the temporary file could not be opened and none is there to be
renamed; or it was written over one with the same bytes, and is still there; or it was new, and has replaced a file
with the same bytes. -/
def LeavesTree (E : Env) : List PutFileReq → Files → Prop
  | [], _ => True
  | request :: rest, files =>
      let temp := uploadTemp E request.path
      let target := getServerPath request.path
      let bytes := landed E 0 (rest.map (·.contents))
      (E.fails .putFileRename = none ∧ E.fails .putFileLstat = none) ∨
      (E.fails .putFileOpen ≠ none ∧ (E.fails .putFileRename ≠ none ∨ files.names temp = none ∨
        files.names temp = files.names target)) ∨
      (E.fails .putFileOpen = none ∧ bytesAt files temp = some bytes ∧
        (E.fails .putFileRename ≠ none ∨ files.names temp = files.names target)) ∨
      (E.fails .putFileOpen = none ∧ E.fails .putFileRename = none ∧ files.names temp = none ∧
        bytesAt files target = some bytes)

variable {E request rest} {srv : Server}

/-- The rename failed. -/
theorem rejected_unmoved (h : E.fails .putFileRename ≠ none ∨
      (writeUpload E (request :: rest) srv.files).names (uploadTemp E request.path) = none) :
    ((putFile E (request :: rest) srv).1 = none →
        SameTree srv.files (putFile E (request :: rest) srv).2.files) ↔
      ∀ name, bytesAt (writeUpload E (request :: rest) srv.files) name = bytesAt srv.files name := by
  rcases putFile_cases E request rest srv with ⟨_, hput⟩ | ⟨hok, hpresent, _⟩
  · rw [hput, forall_prop_of_true rfl, sameTree_iff]
  · rcases h with hfails | hmissing
    · exact absurd hok hfails
    · exact absurd hmissing hpresent

/-- It did not; then only `lstat` can have the request rejected. -/
theorem rejected_moved (hok : E.fails .putFileRename = none)
    (hpresent : (writeUpload E (request :: rest) srv.files).names (uploadTemp E request.path) ≠ none) :
    ((putFile E (request :: rest) srv).1 = none →
        SameTree srv.files (putFile E (request :: rest) srv).2.files) ↔
      E.fails .putFileLstat = none ∨ ∀ name, bytesAt ((writeUpload E (request :: rest) srv.files).rename
        (uploadTemp E request.path) (getServerPath request.path)) name = bytesAt srv.files name := by
  rcases putFile_cases E request rest srv with ⟨hfails | hmissing, _⟩ | ⟨_, _, _, hreply, hdated⟩
  · rw [hok] at hfails
    cases hfails
  · exact absurd hmissing hpresent
  · have hbytes : ∀ name, bytesAt (putFile E (request :: rest) srv).2.files name =
        bytesAt ((writeUpload E (request :: rest) srv.files).rename
          (uploadTemp E request.path) (getServerPath request.path)) name := fun name => bytesAt_of_dated (hdated name)
    have hthere : (putFile E (request :: rest) srv).2.files.find (getServerPath request.path) ≠ none := by
      rw [Ne, Fs.find_eq_none_iff, ← bytesAt_eq_none_iff, hbytes, bytesAt_eq_none_iff, Fs.rename_names_new]
      exact hpresent
    have hnone : (putFile E (request :: rest) srv).1 = none ↔ E.fails .putFileLstat ≠ none := by
      rw [hreply, Option.map_eq_none_iff]
      unfold uploadLstat
      cases E.fails .putFileLstat with
      | some e => exact iff_of_true rfl (Option.some_ne_none e)
      | none => exact iff_of_false (fun h => hthere (Option.map_eq_none_iff.mp h)) fun h => h rfl
    rw [hnone, sameTree_iff]
    simp only [hbytes, imp_iff_not_or, not_not]

/-- Without the temporary file there is something to be renamed only if one was left under its name. -/
theorem rejected_unopened_iff (hopen : E.fails .putFileOpen ≠ none) :
    ((putFile E (request :: rest) srv).1 = none →
        SameTree srv.files (putFile E (request :: rest) srv).2.files) ↔
      (E.fails .putFileRename = none ∧ E.fails .putFileLstat = none) ∨ E.fails .putFileRename ≠ none ∨
        srv.files.names (uploadTemp E request.path) = none ∨
        srv.files.names (uploadTemp E request.path) = srv.files.names (getServerPath request.path) := by
  have hwritten := writeUpload_of_open_fails E request rest srv.files (Option.isSome_iff_ne_none.mpr hopen)
  by_cases hunmoved : E.fails .putFileRename ≠ none ∨ srv.files.names (uploadTemp E request.path) = none
  · rw [rejected_unmoved (by rwa [hwritten]), hwritten]
    exact iff_of_true (fun _ => rfl) (Or.inr (hunmoved.imp_right Or.inl))
  · rw [not_or, not_not] at hunmoved
    obtain ⟨hok, hpresent⟩ := hunmoved
    rw [rejected_moved hok (by rwa [hwritten]), hwritten]
    by_cases hlinked : srv.files.names (uploadTemp E request.path) = srv.files.names (getServerPath request.path)
    · rw [Fs.rename_of_same hlinked]
      exact iff_of_true (Or.inr fun _ => rfl) (Or.inr (Or.inr (Or.inr hlinked)))
    · rw [renamed_same_iff hlinked]
      simp only [hok, hpresent, hlinked, ne_eq, not_true_eq_false, false_and, or_false, true_and]

/-- With it, the bytes decide. -/
theorem rejected_opened_iff (hopen : E.fails .putFileOpen = none) :
    ((putFile E (request :: rest) srv).1 = none →
        SameTree srv.files (putFile E (request :: rest) srv).2.files) ↔
      (E.fails .putFileRename = none ∧ E.fails .putFileLstat = none) ∨
        (bytesAt srv.files (uploadTemp E request.path) = some (landed E 0 (rest.map (·.contents))) ∧
          (E.fails .putFileRename ≠ none ∨
            srv.files.names (uploadTemp E request.path) = srv.files.names (getServerPath request.path))) ∨
        (E.fails .putFileRename = none ∧ srv.files.names (uploadTemp E request.path) = none ∧
          bytesAt srv.files (getServerPath request.path) = some (landed E 0 (rest.map (·.contents)))) := by
  have hsame := written_same_iff E request rest srv.files hopen
  obtain ⟨ino, hname, hcontent, hother, hino, _⟩ := writeUpload_of_opened E request rest srv.files hopen
  have htarget := hother _ (uploadTemp_ne E request.path).symm
  by_cases hrename : E.fails .putFileRename = none
  · rw [rejected_moved hrename (hname ▸ Option.some_ne_none ino)]
    simp only [hrename, ne_eq, not_true_eq_false, false_or, true_and]
    refine or_congr_right ?_
    by_cases hlinked : (writeUpload E (request :: rest) srv.files).names (uploadTemp E request.path) =
        (writeUpload E (request :: rest) srv.files).names (getServerPath request.path)
    · -- one file under both names before: the rename does nothing
      rw [Fs.rename_of_same hlinked, hsame]
      have hthere : srv.files.names (getServerPath request.path) = some ino :=
        htarget.symm.trans (hlinked.symm.trans hname)
      have hold : srv.files.names (uploadTemp E request.path) = some ino := by
        refine hino.resolve_right fun ⟨_, hnew⟩ => ?_
        have hlt := srv.files.named_lt _ ino hthere
        omega
      constructor
      · exact fun h => Or.inl ⟨h, hold.trans hthere.symm⟩
      · rintro (⟨h, _⟩ | ⟨hnone, _⟩)
        · exact h
        · rw [hold] at hnone
          cases hnone
    · rw [renamed_same_iff hlinked, bytesAt_of_names hname, hcontent]
      constructor
      · rintro ⟨hnone, h, _⟩
        exact Or.inr ⟨hnone, h⟩
      · rintro (⟨h, hequal⟩ | ⟨hnone, h⟩)
        · have hold : srv.files.names (uploadTemp E request.path) = some ino := by
            refine hino.resolve_right fun ⟨hnone, _⟩ => ?_
            rw [bytesAt_eq_none_iff.mpr hnone] at h
            cases h
          exact absurd (hname.trans ((hequal.symm.trans hold).symm.trans htarget.symm)) hlinked
        · exact ⟨hnone, h, fun name hne _ => written_others E request rest srv.files hopen hnone hne⟩
  · rw [rejected_unmoved (Or.inl hrename), hsame]
    simp only [hrename, ne_eq, not_false_eq_true, true_or, and_true, false_and, false_or, or_false]

end Rejected

theorem rejected_leaves_tree_iff (E : Env) (requests : List PutFileReq) (srv : Server) :
    ((putFile E requests srv).1 = none → SameTree srv.files (putFile E requests srv).2.files) ↔
      LeavesTree E requests srv.files := by
  cases requests with
  | nil =>
      rw [putFile_nil]
      exact iff_of_true (fun _ => sameTree_iff.mpr fun _ => rfl) trivial
  | cons request rest =>
      unfold LeavesTree
      by_cases hopen : E.fails .putFileOpen = none
      · rw [rejected_opened_iff hopen]
        simp only [hopen, ne_eq, not_true_eq_false, false_and, false_or, true_and]
      · rw [rejected_unopened_iff hopen]
        simp only [hopen, ne_eq, not_false_eq_true, true_and, false_and, or_false]

/-- The rename of a new file fails: its bytes stay under the temporary name. -/
theorem rejected_leaves_temp :
    let E : Env := { Env.smooth 5 with
      fails := fun site => if site = .putFileRename then some EIO else none
      fails_pos := fun site e h => by
        split at h
        · exact Option.some.inj h ▸ by decide
        · cases h }
    let srv : Server := ⟨.empty ⟨[], default, default⟩, []⟩
    let after := putFile E (uploadRequests (ascii "/f") [ascii "data"]) srv
    after.1 = none ∧ srv.files.names (uploadTemp E (ascii "/f")) = none ∧
      bytesAt after.2.files (uploadTemp E (ascii "/f")) = some (ascii "data") ∧
      ¬ (after.1 = none → SameTree srv.files after.2.files) := by
  intro E srv after
  have hrejected : after.1 = none := by decide +kernel
  have hfree : srv.files.names (uploadTemp E (ascii "/f")) = none := rfl
  have hleft : bytesAt after.2.files (uploadTemp E (ascii "/f")) = some (ascii "data") := by decide +kernel
  refine ⟨hrejected, hfree, hleft, fun h => ?_⟩
  have hgone := bytesAt_eq_none_iff.mpr (((h hrejected).names _).mpr hfree)
  rw [hleft] at hgone
  cases hgone

end FileServer

end Bnfs
