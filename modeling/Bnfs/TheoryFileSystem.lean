import Mathlib.Data.Set.Defs
import Mathlib.Logic.Function.Basic
import Mathlib.Tactic.SplitIfs

/-! A file system as names over inodes, in the way POSIX separates them: a name leads to an inode
number, an open descriptor keeps an inode number and not a name, and renaming or removing a name
leaves the inode alone. Names, times and the remaining attributes are arbitrary types. -/

namespace FileSystem

/-- A file: its bytes, the time they last changed, and the attributes that go with it. -/
structure Inode (Time Attr : Type) where
  content : List UInt8
  mtime : Time
  attr : Attr
  deriving DecidableEq

/-- Names and inodes. Inode numbers are given out in order and every name leads to one given out. -/
structure Fs (Name Time Attr : Type) where
  names : Name → Option Nat
  inode : Nat → Inode Time Attr
  next : Nat
  named_lt : ∀ name i, names name = some i → i < next

variable {Name Time Attr : Type}

namespace Fs

/-- No names; every inode number stands for one given file. -/
def empty (file : Inode Time Attr) : Fs Name Time Attr := ⟨fun _ => none, fun _ => file, 0, nofun⟩

/-- The file a name leads to. -/
def find (fs : Fs Name Time Attr) (name : Name) : Option (Inode Time Attr) :=
  (fs.names name).map fs.inode

/-- No other name leads to the inode of this one. -/
def Sole (fs : Fs Name Time Attr) (name : Name) : Prop :=
  ∀ i, fs.names name = some i → ∀ other, fs.names other = some i → other = name

/-- Whether a name is the only one of its inode depends on the names alone. -/
theorem Sole.of_names_eq {fs fs' : Fs Name Time Attr} {name : Name} (h : fs.Sole name)
    (heq : fs'.names = fs.names) : fs'.Sole name := by
  intro i hi other hother
  rw [heq] at hi hother
  exact h i hi other hother

theorem find_of_names {fs : Fs Name Time Attr} {name : Name} {i : Nat}
    (h : fs.names name = some i) : fs.find name = some (fs.inode i) := by
  rw [find, h, Option.map_some]

theorem find_eq_none_iff {fs : Fs Name Time Attr} {name : Name} :
    fs.find name = none ↔ fs.names name = none := by
  rw [find, Option.map_eq_none_iff]

theorem find_eq_some_iff {fs : Fs Name Time Attr} {name : Name} {file : Inode Time Attr} :
    fs.find name = some file ↔ ∃ i, fs.names name = some i ∧ fs.inode i = file := by
  rw [find, Option.map_eq_some_iff]

/-- Replace the file an inode number stands for. -/
def setInode (fs : Fs Name Time Attr) (i : Nat) (file : Inode Time Attr) : Fs Name Time Attr :=
  { fs with inode := Function.update fs.inode i file }

/-- New bytes in an inode, with the time of the change. -/
def put (fs : Fs Name Time Attr) (i : Nat) (content : List UInt8) (now : Time) : Fs Name Time Attr :=
  fs.setInode i ⟨content, now, (fs.inode i).attr⟩

@[simp] theorem setInode_names (fs : Fs Name Time Attr) (i : Nat) (file : Inode Time Attr) :
    (fs.setInode i file).names = fs.names := rfl

@[simp] theorem setInode_next (fs : Fs Name Time Attr) (i : Nat) (file : Inode Time Attr) :
    (fs.setInode i file).next = fs.next := rfl

@[simp] theorem setInode_self (fs : Fs Name Time Attr) (i : Nat) (file : Inode Time Attr) :
    (fs.setInode i file).inode i = file := by simp only [setInode, Function.update_self]

theorem setInode_of_ne (fs : Fs Name Time Attr) {i j : Nat} (file : Inode Time Attr) (h : j ≠ i) :
    (fs.setInode i file).inode j = fs.inode j := by
  simp only [setInode, Function.update_of_ne h]

@[simp] theorem put_names (fs : Fs Name Time Attr) (i : Nat) (content : List UInt8) (now : Time) :
    (fs.put i content now).names = fs.names := rfl

@[simp] theorem put_next (fs : Fs Name Time Attr) (i : Nat) (content : List UInt8) (now : Time) :
    (fs.put i content now).next = fs.next := rfl

@[simp] theorem put_self (fs : Fs Name Time Attr) (i : Nat) (content : List UInt8) (now : Time) :
    (fs.put i content now).inode i = ⟨content, now, (fs.inode i).attr⟩ := setInode_self fs i _

theorem put_of_ne (fs : Fs Name Time Attr) {i j : Nat} (content : List UInt8) (now : Time)
    (h : j ≠ i) : (fs.put i content now).inode j = fs.inode j := setInode_of_ne fs _ h

/-- A name that does not lead to the inode finds the same file as before. -/
theorem find_setInode_of_ne (fs : Fs Name Time Attr) {name : Name} {i : Nat}
    (file : Inode Time Attr) (h : fs.names name ≠ some i) :
    (fs.setInode i file).find name = fs.find name := by
  cases hn : fs.names name with
  | none => rw [find_eq_none_iff.mpr hn, find_eq_none_iff.mpr (by simpa using hn)]
  | some j =>
      have hj : j ≠ i := fun heq => h (heq ▸ hn)
      have hset : (fs.setInode i file).names name = some j := by simpa using hn
      rw [find_of_names hn, find_of_names hset, setInode_of_ne fs file hj]

theorem find_put_of_ne (fs : Fs Name Time Attr) {name : Name} {i : Nat} (content : List UInt8)
    (now : Time) (h : fs.names name ≠ some i) : (fs.put i content now).find name = fs.find name :=
  find_setInode_of_ne fs _ h

theorem find_setInode_self (fs : Fs Name Time Attr) {name : Name} {i : Nat}
    (file : Inode Time Attr) (h : fs.names name = some i) :
    (fs.setInode i file).find name = some file := by
  have hset : (fs.setInode i file).names name = some i := by simpa using h
  rw [find_of_names hset, setInode_self]

/-- A change that keeps the bytes of an inode keeps those of every name. -/
theorem content_setInode (fs : Fs Name Time Attr) (name : Name) {i : Nat} {file : Inode Time Attr}
    (h : file.content = (fs.inode i).content) :
    ((fs.setInode i file).find name).map (·.content) = (fs.find name).map (·.content) := by
  by_cases hname : fs.names name = some i
  · rw [find_setInode_self fs file hname, find_of_names hname, Option.map_some, Option.map_some, h]
  · rw [find_setInode_of_ne fs file hname]

section Names

variable [DecidableEq Name]

/-- A new inode under a name. -/
def create (fs : Fs Name Time Attr) (name : Name) (file : Inode Time Attr) : Fs Name Time Attr where
  names := Function.update fs.names name (some fs.next)
  inode := Function.update fs.inode fs.next file
  next := fs.next + 1
  named_lt other i h := by
    by_cases hname : other = name
    · subst hname
      rw [Function.update_self] at h
      have := Option.some.inj h
      omega
    · rw [Function.update_of_ne hname] at h
      have := fs.named_lt other i h
      omega

/-- Take a name away; the inode stays for whoever still has it open. -/
def remove (fs : Fs Name Time Attr) (name : Name) : Fs Name Time Attr :=
  { fs with
    names := Function.update fs.names name none
    named_lt := fun other i h => by
      by_cases hname : other = name
      · subst hname
        rw [Function.update_self] at h
        cases h
      · rw [Function.update_of_ne hname] at h
        exact fs.named_lt other i h }

/-- Give the inode of one name a second name. -/
def link (fs : Fs Name Time Attr) (old new : Name) : Fs Name Time Attr :=
  { fs with
    names := Function.update fs.names new (fs.names old)
    named_lt := fun other i h => by
      by_cases hname : other = new
      · subst hname
        rw [Function.update_self] at h
        exact fs.named_lt old i h
      · rw [Function.update_of_ne hname] at h
        exact fs.named_lt other i h }

/-- Move an inode from one name to another, replacing what the second led to. Two names of one
inode are left as they are. -/
def rename (fs : Fs Name Time Attr) (old new : Name) : Fs Name Time Attr :=
  if fs.names old = fs.names new then fs else (fs.link old new).remove old

@[simp] theorem create_names_self (fs : Fs Name Time Attr) (name : Name) (file : Inode Time Attr) :
    (fs.create name file).names name = some fs.next := Function.update_self name _ fs.names

theorem create_names_of_ne (fs : Fs Name Time Attr) {name other : Name} (file : Inode Time Attr)
    (h : other ≠ name) : (fs.create name file).names other = fs.names other :=
  Function.update_of_ne h _ fs.names

@[simp] theorem create_next (fs : Fs Name Time Attr) (name : Name) (file : Inode Time Attr) :
    (fs.create name file).next = fs.next + 1 := rfl

@[simp] theorem create_inode_self (fs : Fs Name Time Attr) (name : Name) (file : Inode Time Attr) :
    (fs.create name file).inode fs.next = file := by simp only [create, Function.update_self]

theorem create_inode_of_ne (fs : Fs Name Time Attr) (name : Name) (file : Inode Time Attr) {i : Nat}
    (h : i ≠ fs.next) : (fs.create name file).inode i = fs.inode i := by
  simp only [create, Function.update_of_ne h]

@[simp] theorem find_create_self (fs : Fs Name Time Attr) (name : Name) (file : Inode Time Attr) :
    (fs.create name file).find name = some file := by
  rw [find_of_names (create_names_self fs name file), create_inode_self]

theorem find_create_of_ne (fs : Fs Name Time Attr) {name other : Name} (file : Inode Time Attr)
    (h : other ≠ name) : (fs.create name file).find other = fs.find other := by
  cases hn : fs.names other with
  | none =>
      rw [find_eq_none_iff.mpr hn, find_eq_none_iff.mpr (by rw [create_names_of_ne fs file h, hn])]
  | some i =>
      have hi : i ≠ fs.next := Nat.ne_of_lt (fs.named_lt other i hn)
      have hcreate : (fs.create name file).names other = some i := by
        rw [create_names_of_ne fs file h, hn]
      rw [find_of_names hn, find_of_names hcreate, create_inode_of_ne fs name file hi]

@[simp] theorem remove_names_self (fs : Fs Name Time Attr) (name : Name) :
    (fs.remove name).names name = none := Function.update_self name _ fs.names

theorem remove_names_of_ne (fs : Fs Name Time Attr) {name other : Name} (h : other ≠ name) :
    (fs.remove name).names other = fs.names other := Function.update_of_ne h _ fs.names

@[simp] theorem remove_inode (fs : Fs Name Time Attr) (name : Name) :
    (fs.remove name).inode = fs.inode := rfl

@[simp] theorem remove_next (fs : Fs Name Time Attr) (name : Name) :
    (fs.remove name).next = fs.next := rfl

/-- There is nothing to take away under a free name. -/
theorem remove_of_missing {fs : Fs Name Time Attr} {name : Name} (h : fs.names name = none) :
    fs.remove name = fs := by
  have hnames : Function.update fs.names name none = fs.names := by
    rw [← h, Function.update_eq_self]
  unfold remove
  simp only [hnames]

theorem find_remove_self (fs : Fs Name Time Attr) (name : Name) : (fs.remove name).find name = none :=
  find_eq_none_iff.mpr (remove_names_self fs name)

@[simp] theorem link_names_self (fs : Fs Name Time Attr) (old new : Name) :
    (fs.link old new).names new = fs.names old := Function.update_self new _ fs.names

theorem link_names_of_ne (fs : Fs Name Time Attr) {old new other : Name} (h : other ≠ new) :
    (fs.link old new).names other = fs.names other := Function.update_of_ne h _ fs.names

@[simp] theorem rename_inode (fs : Fs Name Time Attr) (old new : Name) :
    (fs.rename old new).inode = fs.inode := by
  rw [rename]
  split_ifs <;> rfl

@[simp] theorem rename_next (fs : Fs Name Time Attr) (old new : Name) :
    (fs.rename old new).next = fs.next := by
  rw [rename]
  split_ifs <;> rfl

theorem rename_names_new (fs : Fs Name Time Attr) (old new : Name) :
    (fs.rename old new).names new = fs.names old := by
  rw [rename]
  split_ifs with h
  · exact h.symm
  · have hne : new ≠ old := fun heq => h (by rw [heq])
    rw [remove_names_of_ne _ hne, link_names_self]

theorem rename_of_same {fs : Fs Name Time Attr} {old new : Name} (h : fs.names old = fs.names new) :
    fs.rename old new = fs := if_pos h

/-- The old name is free afterwards. -/
theorem rename_names_old {fs : Fs Name Time Attr} {old new : Name} (h : fs.names old ≠ fs.names new) :
    (fs.rename old new).names old = none := by
  rw [rename, if_neg h, remove_names_self]

theorem rename_names_of_ne (fs : Fs Name Time Attr) {old new other : Name} (hold : other ≠ old)
    (hnew : other ≠ new) : (fs.rename old new).names other = fs.names other := by
  rw [rename]
  split_ifs
  · rfl
  · rw [remove_names_of_ne _ hold, link_names_of_ne _ hnew]

theorem find_rename_new (fs : Fs Name Time Attr) (old new : Name) :
    (fs.rename old new).find new = fs.find old := by
  rw [find, rename_names_new, rename_inode]
  rfl

theorem find_rename_of_ne (fs : Fs Name Time Attr) {old new other : Name} (hold : other ≠ old)
    (hnew : other ≠ new) : (fs.rename old new).find other = fs.find other := by
  rw [find, rename_names_of_ne fs hold hnew, rename_inode]
  rfl

/-- The inode of a name, a fresh empty one if the name is free, and the file system with it. -/
def openCreate (fs : Fs Name Time Attr) (name : Name) (now : Time) (attr : Attr) :
    Fs Name Time Attr × Nat :=
  match fs.names name with
  | some i => (fs, i)
  | none => (fs.create name ⟨[], now, attr⟩, fs.next)

/-- Open for writing from scratch: what the name leads to is truncated in place, a free name gets a
fresh empty inode. -/
def openTrunc (fs : Fs Name Time Attr) (name : Name) (now : Time) (attr : Attr) :
    Fs Name Time Attr × Nat :=
  match fs.names name with
  | some i => (fs.put i [] now, i)
  | none => (fs.create name ⟨[], now, attr⟩, fs.next)

/-- Truncate or create, then write all the bytes. -/
def overwrite (fs : Fs Name Time Attr) (name : Name) (content : List UInt8) (now : Time)
    (attr : Attr) : Fs Name Time Attr :=
  (fs.openTrunc name now attr).1.put (fs.openTrunc name now attr).2 content now

theorem openTrunc_names_self (fs : Fs Name Time Attr) (name : Name) (now : Time) (attr : Attr) :
    (fs.openTrunc name now attr).1.names name = some (fs.openTrunc name now attr).2 := by
  rw [openTrunc]
  split
  · simpa using ‹_›
  · simp

theorem openTrunc_names_of_ne (fs : Fs Name Time Attr) {name other : Name} (now : Time)
    (attr : Attr) (h : other ≠ name) :
    (fs.openTrunc name now attr).1.names other = fs.names other := by
  rw [openTrunc]
  split
  · rfl
  · exact create_names_of_ne fs _ h

theorem openTrunc_inode_self (fs : Fs Name Time Attr) (name : Name) (now : Time) (attr : Attr) :
    ((fs.openTrunc name now attr).1.inode (fs.openTrunc name now attr).2).content = [] ∧
      ((fs.openTrunc name now attr).1.inode (fs.openTrunc name now attr).2).mtime = now := by
  rw [openTrunc]
  split <;> simp

theorem openTrunc_inode_of_ne (fs : Fs Name Time Attr) (name : Name) (now : Time) (attr : Attr)
    {i : Nat} (h : i ≠ (fs.openTrunc name now attr).2) :
    (fs.openTrunc name now attr).1.inode i = fs.inode i := by
  revert h
  rw [openTrunc]
  split
  · exact put_of_ne fs _ _
  · exact create_inode_of_ne fs name _

theorem openTrunc_next_le (fs : Fs Name Time Attr) (name : Name) (now : Time) (attr : Attr) :
    fs.next ≤ (fs.openTrunc name now attr).1.next := by
  rw [openTrunc]
  split <;> simp

/-- The inode opened is the one the name led to, or a fresh one. -/
theorem openTrunc_ino (fs : Fs Name Time Attr) (name : Name) (now : Time) (attr : Attr) :
    fs.names name = some (fs.openTrunc name now attr).2 ∨
      (fs.names name = none ∧ (fs.openTrunc name now attr).2 = fs.next) := by
  rw [openTrunc]
  split
  · exact Or.inl ‹_›
  · exact Or.inr ⟨‹_›, rfl⟩

theorem overwrite_names_self (fs : Fs Name Time Attr) (name : Name) (content : List UInt8)
    (now : Time) (attr : Attr) :
    (fs.overwrite name content now attr).names name = some (fs.openTrunc name now attr).2 := by
  rw [overwrite, put_names, openTrunc_names_self]

/-- A new inode has the one name it was created with. -/
theorem create_sole (fs : Fs Name Time Attr) (name : Name) (file : Inode Time Attr) :
    (fs.create name file).Sole name := by
  intro i hi other hother
  by_contra hne
  rw [create_names_self] at hi
  rw [create_names_of_ne fs file hne] at hother
  have hlt := fs.named_lt other i hother
  have hnext := Option.some.inj hi
  omega

/-- A name sharing its inode with no other keeps it to itself, and a fresh inode is its own. -/
theorem openTrunc_sole {fs : Fs Name Time Attr} {name : Name} (now : Time) (attr : Attr)
    {other : Name} (h : fs.Sole other) : (fs.openTrunc name now attr).1.Sole other := by
  intro i hi third hthird
  by_cases ho : other = name
  · subst ho
    rw [openTrunc_names_self] at hi
    by_cases ht : third = other
    · exact ht
    · rw [openTrunc_names_of_ne fs now attr ht] at hthird
      rcases openTrunc_ino fs other now attr with hold | ⟨_, hnew⟩
      · exact h i (hold.trans hi) third hthird
      · have := fs.named_lt third i hthird
        rw [hnew] at hi
        have := Option.some.inj hi
        omega
  · rw [openTrunc_names_of_ne fs now attr ho] at hi
    by_cases ht : third = name
    · subst ht
      rw [openTrunc_names_self] at hthird
      rcases openTrunc_ino fs third now attr with hold | ⟨_, hnew⟩
      · exact h i hi third (hold.trans hthird)
      · have := fs.named_lt other i hi
        rw [hnew] at hthird
        have := Option.some.inj hthird
        omega
    · rw [openTrunc_names_of_ne fs now attr ht] at hthird
      exact h i hi third hthird

theorem overwrite_sole {fs : Fs Name Time Attr} {name : Name} (content : List UInt8) (now : Time)
    (attr : Attr) {other : Name} (h : fs.Sole other) :
    (fs.overwrite name content now attr).Sole other :=
  (openTrunc_sole now attr h).of_names_eq (put_names _ _ _ _)

/-- The only name of an inode stays the only one when other names are moved about. -/
theorem rename_sole {fs : Fs Name Time Attr} {old new other : Name} (h : fs.Sole other)
    (hnew : other ≠ new) : (fs.rename old new).Sole other := by
  rw [rename]
  split_ifs with hsame
  · exact h
  · intro i hi third hthird
    have hold : other ≠ old := by
      rintro rfl
      rw [remove_names_self] at hi
      cases hi
    rw [remove_names_of_ne _ hold, link_names_of_ne _ hnew] at hi
    by_cases ht : third = old
    · subst ht
      rw [remove_names_self] at hthird
      cases hthird
    · rw [remove_names_of_ne _ ht] at hthird
      by_cases htn : third = new
      · subst htn
        rw [link_names_self] at hthird
        exact absurd (h i hi old hthird) (Ne.symm hold)
      · rw [link_names_of_ne _ htn] at hthird
        exact h i hi third hthird

/-- What moves to a name and had no other is the only one there. -/
theorem rename_sole_new {fs : Fs Name Time Attr} {old : Name} (new : Name) (h : fs.Sole old) :
    (fs.rename old new).Sole new := by
  intro i hi other hother
  rw [rename_names_new] at hi
  by_contra hne
  by_cases ho : other = old
  · subst ho
    rw [rename] at hother
    split_ifs at hother with hsame
    · exact hne (h i hi new (hsame.symm.trans hi)).symm
    · rw [remove_names_self] at hother
      cases hother
  · rw [rename_names_of_ne fs ho hne] at hother
    exact ho (h i hi other hother)

theorem remove_sole {fs : Fs Name Time Attr} (name : Name) {other : Name} (h : fs.Sole other) :
    (fs.remove name).Sole other := by
  have hnames : ∀ third i, (fs.remove name).names third = some i → fs.names third = some i := by
    intro third i hi
    by_cases ht : third = name
    · rw [ht, remove_names_self] at hi
      cases hi
    · rwa [remove_names_of_ne fs ht] at hi
  exact fun i hi third hthird => h i (hnames other i hi) third (hnames third i hthird)

/-- Opening one name for writing leaves every name with another inode as it was. -/
theorem find_openTrunc_of_ne (fs : Fs Name Time Attr) {name other : Name} (now : Time) (attr : Attr)
    (hne : other ≠ name) (h : ∀ i, fs.names name = some i → fs.names other ≠ some i) :
    (fs.openTrunc name now attr).1.find other = fs.find other := by
  have hnames := openTrunc_names_of_ne fs now attr hne
  cases hn : fs.names other with
  | none => rw [find_eq_none_iff.mpr hn, find_eq_none_iff.mpr (hnames.trans hn)]
  | some i =>
      have hi : i ≠ (fs.openTrunc name now attr).2 := by
        rintro rfl
        rcases openTrunc_ino fs name now attr with hold | ⟨_, hnew⟩
        · exact h _ hold hn
        · have := fs.named_lt other _ hn
          omega
      rw [find_of_names hn, find_of_names (hnames.trans hn), openTrunc_inode_of_ne fs name now attr hi]

theorem find_overwrite_self (fs : Fs Name Time Attr) (name : Name) (content : List UInt8)
    (now : Time) (attr : Attr) :
    ∃ kept, (fs.overwrite name content now attr).find name = some ⟨content, now, kept⟩ := by
  rw [find_of_names (overwrite_names_self fs name content now attr), overwrite, put_self]
  exact ⟨_, rfl⟩

end Names

/-! ### Writing a name from scratch -/

/-- The bytes under a name are replaced, if that works: every name of the same file has the new bytes then, and
every other name keeps its file. -/
structure Rewritten (ok : Prop) (name : Name) (data : List UInt8) (fs fs' : Fs Name Time Attr) : Prop where
  failed : ¬ ok → fs' = fs
  self : ok → (fs'.find name).map (·.content) = some data
  shared : ok → ∀ other, fs.names name = fs.names other → fs.names other ≠ none →
    (fs'.find other).map (·.content) = some data
  apart : ∀ other, fs.names name ≠ fs.names other → fs'.find other = fs.find other
  names : ∀ other, other ≠ name → fs'.names other = fs.names other

namespace Rewritten

variable {ok : Prop} {name : Name} {data : List UInt8} {fs fs' : Fs Name Time Attr}

theorem of_failed (h : ¬ ok) : Rewritten ok name data fs fs :=
  ⟨fun _ => rfl, fun hok => absurd hok h, fun hok => absurd hok h, fun _ _ => rfl, fun _ _ => rfl⟩

/-- The name is taken afterwards if it was before or the write worked. -/
theorem taken_iff (h : Rewritten ok name data fs fs') : fs'.names name ≠ none ↔ fs.names name ≠ none ∨ ok := by
  by_cases hok : ok
  · refine iff_of_true (fun hnone => ?_) (Or.inr hok)
    have hself := h.self hok
    rw [find_eq_none_iff.mpr hnone] at hself
    cases hself
  · rw [h.failed hok, or_iff_left hok]

/-- A name of the same file, whatever it had before. -/
theorem content_eq (h : Rewritten ok name data fs fs') {other : Name} (hother : fs.names other ≠ none)
    (hhit : ok ∧ fs.names name = fs.names other) : (fs'.find other).map (·.content) = some data :=
  h.shared hhit.1 other hhit.2 hother

/-- A name the write does not reach. -/
theorem find_eq (h : Rewritten ok name data fs fs') {other : Name}
    (hmiss : ¬ (ok ∧ fs.names name = fs.names other)) : fs'.find other = fs.find other := by
  by_cases hok : ok
  · exact h.apart other fun hsame => hmiss ⟨hok, hsame⟩
  · rw [h.failed hok]

/-- Bytes that were there are still there exactly if the write does not reach them or writes the same. -/
theorem content_iff (h : Rewritten ok name data fs fs') {other : Name} {content : List UInt8}
    (hthere : (fs.find other).map (·.content) = some content) :
    (fs'.find other).map (·.content) = some content ↔
      (ok → fs.names name = fs.names other → data = content) := by
  have hother : fs.names other ≠ none := fun hnone => by
    rw [find_eq_none_iff.mpr hnone] at hthere
    cases hthere
  by_cases hhit : ok ∧ fs.names name = fs.names other
  · rw [h.content_eq hother hhit, Option.some_inj]
    exact ⟨fun heq _ _ => heq, fun himp => himp hhit.1 hhit.2⟩
  · rw [h.find_eq hhit]
    exact iff_of_true hthere fun hok hsame => absurd ⟨hok, hsame⟩ hhit

/-- The name is written after another one: what counts is the write to the name itself, and the other one only if
that does not work and both are names of one file. -/
theorem content_iff_last {ok' : Prop} {other : Name} {data' : List UInt8} {fs₁ : Fs Name Time Attr}
    (h : Rewritten ok' other data' fs fs₁) (h' : Rewritten ok name data fs₁ fs') {content : List UInt8}
    (hthere : (fs.find name).map (·.content) = some content) :
    (fs'.find name).map (·.content) = some content ↔
      (ok → data = content) ∧ (¬ ok → ok' → fs.names other = fs.names name → data' = content) := by
  by_cases hok : ok
  · rw [h'.self hok, Option.some_inj]
    exact ⟨fun heq => ⟨fun _ => heq, fun hnot => absurd hok hnot⟩, fun himp => himp.1 hok⟩
  · rw [h'.failed hok, h.content_iff hthere]
    exact ⟨fun himp => ⟨fun h => absurd h hok, fun _ => himp⟩, fun himp => himp.2 hok⟩

/-- The name is written first, and then another one the same way. -/
theorem content_iff_first {ok' : Prop} {other : Name} {fs₁ : Fs Name Time Attr}
    (h : Rewritten ok name data fs fs₁) (h' : Rewritten ok' other data fs₁ fs') {content : List UInt8}
    (hthere : (fs.find name).map (·.content) = some content) :
    (fs'.find name).map (·.content) = some content ↔
      (ok → data = content) ∧ (¬ ok → ok' → fs.names other = fs.names name → data = content) := by
  by_cases hok : ok
  · have hself := h.self hok
    have hkept : (fs'.find name).map (·.content) = some data := (h'.content_iff hself).mpr fun _ _ => rfl
    rw [hkept, Option.some_inj]
    exact ⟨fun heq => ⟨fun _ => heq, fun hnot => absurd hok hnot⟩, fun himp => himp.1 hok⟩
  · rw [h.failed hok] at h'
    rw [h'.content_iff hthere]
    exact ⟨fun himp => ⟨fun h => absurd h hok, fun _ => himp⟩, fun himp => himp.2 hok⟩

end Rewritten

section Names

variable [DecidableEq Name]

theorem openTrunc_rewritten {ok : Prop} (hok : ok) (fs : Fs Name Time Attr) (name : Name) (now : Time)
    (attr : Attr) : Rewritten ok name [] fs (fs.openTrunc name now attr).1 where
  failed h := absurd hok h
  self _ := by
    rw [find_of_names (openTrunc_names_self fs name now attr), Option.map_some,
      (openTrunc_inode_self fs name now attr).1]
  shared _ other hsame hother := by
    obtain ⟨i, hi⟩ := Option.ne_none_iff_exists'.mp hother
    have hopened : (fs.openTrunc name now attr).1 = fs.put i [] now := by
      simp only [openTrunc, hsame, hi]
    have hname : (fs.put i [] now).names other = some i := hi
    rw [hopened, find_of_names hname, put_self]
    rfl
  apart other hne := find_openTrunc_of_ne fs now attr (fun heq => hne (by rw [heq]))
    fun i hi hother => hne (hi.trans hother.symm)
  names other hne := openTrunc_names_of_ne fs now attr hne

/-- What is put into the file that was opened is under all of its names. -/
theorem overwrite_rewritten {ok : Prop} (hok : ok) (fs : Fs Name Time Attr) (name : Name)
    (content : List UInt8) (now : Time) (attr : Attr) :
    Rewritten ok name content fs (fs.overwrite name content now attr) where
  failed h := absurd hok h
  self _ := by
    obtain ⟨kept, hfind⟩ := find_overwrite_self fs name content now attr
    rw [hfind]
    rfl
  shared _ other hsame hother := by
    obtain ⟨i, hi⟩ := Option.ne_none_iff_exists'.mp hother
    have hopened : fs.openTrunc name now attr = (fs.put i [] now, i) := by
      simp only [openTrunc, hsame, hi]
    have hname : (fs.overwrite name content now attr).names other = some i := by
      simp only [overwrite, hopened, put_names, hi]
    rw [find_of_names hname]
    simp only [overwrite, hopened, put_self, Option.map_some]
  apart other hne := by
    have hopened := (openTrunc_rewritten hok fs name now attr).apart other hne
    have hother : other ≠ name := fun heq => hne (by rw [heq])
    have htarget : (fs.openTrunc name now attr).1.names other ≠ some (fs.openTrunc name now attr).2 := by
      rw [openTrunc_names_of_ne fs now attr hother]
      rcases openTrunc_ino fs name now attr with hold | ⟨_, hnew⟩
      · exact fun h => hne (hold.trans h.symm)
      · intro h
        have hlt := fs.named_lt other _ h
        omega
    exact (find_put_of_ne _ content now htarget).trans hopened
  names other hne := openTrunc_names_of_ne fs now attr hne

end Names

/-- Only names of the set change: any other name keeps its inode, and a name that shares its inode with
no other keeps its file and stays the only name. -/
structure Within (allowed : Set Name) (fs fs' : Fs Name Time Attr) : Prop where
  names : ∀ name, name ∉ allowed → fs'.names name = fs.names name
  inode : ∀ name, name ∉ allowed → fs.Sole name → ∀ i, fs.names name = some i →
    fs'.inode i = fs.inode i
  sole : ∀ name, name ∉ allowed → fs.Sole name → fs'.Sole name

namespace Within

variable {allowed : Set Name} {fs fs' fs'' : Fs Name Time Attr}

theorem refl (allowed : Set Name) (fs : Fs Name Time Attr) : Within allowed fs fs :=
  ⟨fun _ _ => rfl, fun _ _ _ _ _ => rfl, fun _ _ h => h⟩

theorem trans (h : Within allowed fs fs') (h' : Within allowed fs' fs'') :
    Within allowed fs fs'' where
  names name hname := (h'.names name hname).trans (h.names name hname)
  inode name hname hsole i hi :=
    (h'.inode name hname (h.sole name hname hsole) i ((h.names name hname).trans hi)).trans
      (h.inode name hname hsole i hi)
  sole name hname hsole := h'.sole name hname (h.sole name hname hsole)

theorem mono {allowed' : Set Name} (h : Within allowed fs fs')
    (hle : ∀ name, name ∈ allowed → name ∈ allowed') : Within allowed' fs fs' where
  names name hname := h.names name fun hmem => hname (hle name hmem)
  inode name hname := h.inode name fun hmem => hname (hle name hmem)
  sole name hname := h.sole name fun hmem => hname (hle name hmem)

theorem find_eq (h : Within allowed fs fs') {name : Name} (hname : name ∉ allowed)
    (hsole : fs.Sole name) : fs'.find name = fs.find name := by
  have hnames := h.names name hname
  cases hn : fs.names name with
  | none => rw [find_eq_none_iff.mpr hn, find_eq_none_iff.mpr (hnames.trans hn)]
  | some i =>
      rw [find_of_names hn, find_of_names (hnames.trans hn), h.inode name hname hsole i hn]

end Within

/-- Changing the inode of a name of the set stays within the set. -/
theorem setInode_within {allowed : Set Name} {fs : Fs Name Time Attr} {name : Name} {i : Nat}
    (file : Inode Time Attr) (hname : fs.names name = some i) (hmem : name ∈ allowed) :
    Within allowed fs (fs.setInode i file) where
  names _ _ := rfl
  inode other hother hsole j hj := by
    refine setInode_of_ne fs file ?_
    rintro rfl
    exact hother (hsole j hj name hname ▸ hmem)
  sole other _ hsole := hsole.of_names_eq rfl

section Names

variable [DecidableEq Name]

theorem create_within {allowed : Set Name} {fs : Fs Name Time Attr} {name : Name}
    (file : Inode Time Attr) (hmem : name ∈ allowed) : Within allowed fs (fs.create name file) where
  names other hother := create_names_of_ne fs file fun heq => hother (heq ▸ hmem)
  inode other _ _ i hi := create_inode_of_ne fs name file (Nat.ne_of_lt (fs.named_lt other i hi))
  sole other hother hsole := by
    have hne : other ≠ name := fun heq => hother (heq ▸ hmem)
    intro i hi third hthird
    rw [create_names_of_ne fs file hne] at hi
    by_cases ht : third = name
    · subst ht
      rw [create_names_self] at hthird
      have := fs.named_lt other i hi
      have := Option.some.inj hthird
      omega
    · rw [create_names_of_ne fs file ht] at hthird
      exact hsole i hi third hthird

theorem remove_within {allowed : Set Name} {fs : Fs Name Time Attr} {name : Name}
    (hmem : name ∈ allowed) : Within allowed fs (fs.remove name) where
  names other hother := remove_names_of_ne fs fun heq => hother (heq ▸ hmem)
  inode _ _ _ _ _ := rfl
  sole other hother hsole := by
    have hne : other ≠ name := fun heq => hother (heq ▸ hmem)
    intro i hi third hthird
    rw [remove_names_of_ne fs hne] at hi
    by_cases ht : third = name
    · subst ht
      rw [remove_names_self] at hthird
      cases hthird
    · rw [remove_names_of_ne fs ht] at hthird
      exact hsole i hi third hthird

theorem openTrunc_within {allowed : Set Name} {fs : Fs Name Time Attr} {name : Name} (now : Time)
    (attr : Attr) (hmem : name ∈ allowed) : Within allowed fs (fs.openTrunc name now attr).1 := by
  cases hname : fs.names name with
  | none => simpa only [openTrunc, hname] using create_within _ hmem
  | some i =>
      simp only [openTrunc, hname]
      exact setInode_within _ hname hmem

theorem overwrite_within {allowed : Set Name} {fs : Fs Name Time Attr} {name : Name}
    (content : List UInt8) (now : Time) (attr : Attr) (hmem : name ∈ allowed) :
    Within allowed fs (fs.overwrite name content now attr) :=
  (openTrunc_within now attr hmem).trans
    (setInode_within _ (openTrunc_names_self fs name now attr) hmem)

theorem rename_within {allowed : Set Name} {fs : Fs Name Time Attr} {old new : Name}
    (hold : old ∈ allowed) (hnew : new ∈ allowed) : Within allowed fs (fs.rename old new) where
  names other hother := rename_names_of_ne fs (fun heq => hother (heq ▸ hold))
    fun heq => hother (heq ▸ hnew)
  inode _ _ _ _ _ := by rw [rename_inode]
  sole other hother hsole := rename_sole hsole fun heq => hother (heq ▸ hnew)

end Names

end Fs

end FileSystem
