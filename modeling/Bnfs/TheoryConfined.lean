import Bnfs.TheoryFileSystem

/-! A set of names that shares no file with the names outside it, and changes that are confined to it:
the names outside lead where they led, and the files found there are what they were. -/

namespace FileSystem

namespace Fs

variable {Name Time Attr : Type} {inside : Set Name} {fs fs' fs'' : Fs Name Time Attr}

/-- Only names of the set lead to the inode. -/
def Hidden (inside : Set Name) (fs : Fs Name Time Attr) (i : Nat) : Prop :=
  ∀ name, fs.names name = some i → name ∈ inside

/-- The files of the names of the set have no names outside it. -/
def Apart (inside : Set Name) (fs : Fs Name Time Attr) : Prop :=
  ∀ name ∈ inside, ∀ i, fs.names name = some i → fs.Hidden inside i

/-- The names outside the set, and the files they lead to, are as they were. -/
structure SameOutside (inside : Set Name) (fs fs' : Fs Name Time Attr) : Prop where
  names : ∀ name, name ∉ inside → fs'.names name = fs.names name
  inode : ∀ name, name ∉ inside → ∀ i, fs.names name = some i → fs'.inode i = fs.inode i

namespace SameOutside

theorem refl (inside : Set Name) (fs : Fs Name Time Attr) : SameOutside inside fs fs :=
  ⟨fun _ _ => rfl, fun _ _ _ _ => rfl⟩

theorem trans (h : SameOutside inside fs fs') (h' : SameOutside inside fs' fs'') :
    SameOutside inside fs fs'' where
  names name hname := (h'.names name hname).trans (h.names name hname)
  inode name hname i hi :=
    (h'.inode name hname i ((h.names name hname).trans hi)).trans (h.inode name hname i hi)

theorem find_eq (h : SameOutside inside fs fs') {name : Name} (hname : name ∉ inside) :
    fs'.find name = fs.find name := by
  have hnames := h.names name hname
  cases hn : fs.names name with
  | none => rw [find_eq_none_iff.mpr hn, find_eq_none_iff.mpr (hnames.trans hn)]
  | some i => rw [find_of_names hn, find_of_names (hnames.trans hn), h.inode name hname i hn]

/-- What no name outside leads to stays so. -/
theorem hidden (h : SameOutside inside fs fs') {i : Nat} (hi : fs.Hidden inside i) :
    fs'.Hidden inside i := by
  intro name hname
  by_contra hout
  rw [h.names name hout] at hname
  exact hout (hi name hname)

end SameOutside

theorem setInode_sameOutside {i : Nat} (file : Inode Time Attr) (hi : fs.Hidden inside i) :
    SameOutside inside fs (fs.setInode i file) where
  names _ _ := rfl
  inode name hname j hj := by
    refine setInode_of_ne fs file ?_
    rintro rfl
    exact hname (hi name hj)

theorem Apart.of_names (h : fs.Apart inside)
    (hnames : ∀ name i, fs'.names name = some i → fs.names name = some i) : fs'.Apart inside :=
  fun name hname i hi other hother => h name hname i (hnames name i hi) other (hnames other i hother)

section Names

variable [DecidableEq Name] {name : Name}

theorem create_sameOutside (file : Inode Time Attr) (hname : name ∈ inside) :
    SameOutside inside fs (fs.create name file) where
  names _ hother := create_names_of_ne fs file fun heq => hother (heq ▸ hname)
  inode other _ i hi := create_inode_of_ne fs name file (Nat.ne_of_lt (fs.named_lt other i hi))

/-- A new inode has no name but the new one. -/
theorem Apart.create (h : fs.Apart inside) (file : Inode Time Attr) (hname : name ∈ inside) :
    (fs.create name file).Apart inside := by
  intro other hother i hi third hthird
  by_cases hnew : third = name
  · rw [hnew]
    exact hname
  · by_cases ho : other = name
    · subst ho
      exact absurd (create_sole fs other file i hi third hthird) hnew
    · rw [create_names_of_ne fs file ho] at hi
      rw [create_names_of_ne fs file hnew] at hthird
      exact h other hother i hi third hthird

theorem remove_sameOutside (hname : name ∈ inside) : SameOutside inside fs (fs.remove name) where
  names _ hother := remove_names_of_ne fs fun heq => hother (heq ▸ hname)
  inode _ _ _ _ := rfl

theorem Apart.remove (h : fs.Apart inside) (name : Name) : (fs.remove name).Apart inside := by
  refine h.of_names fun other i hi => ?_
  by_cases ho : other = name
  · rw [ho, remove_names_self] at hi
    cases hi
  · rwa [remove_names_of_ne fs ho] at hi

theorem link_sameOutside {old : Name} (hname : name ∈ inside) :
    SameOutside inside fs (fs.link old name) where
  names _ hother := link_names_of_ne fs fun heq => hother (heq ▸ hname)
  inode _ _ _ _ := rfl

/-- A second name in the set for a file that has one there. -/
theorem Apart.link (h : fs.Apart inside) {old : Name} (hold : old ∈ inside) (hname : name ∈ inside) :
    (fs.link old name).Apart inside := by
  intro other hother i hi third hthird
  by_cases hnew : third = name
  · rw [hnew]
    exact hname
  · rw [link_names_of_ne fs hnew] at hthird
    by_cases ho : other = name
    · rw [ho, link_names_self] at hi
      exact h old hold i hi third hthird
    · rw [link_names_of_ne fs ho] at hi
      exact h other hother i hi third hthird

end Names

/-- A change that stays within the set, of a file system where the set is apart. -/
structure Confined (inside : Set Name) (fs fs' : Fs Name Time Attr) : Prop where
  outside : SameOutside inside fs fs'
  apart : fs'.Apart inside

theorem Confined.refl (h : fs.Apart inside) : Confined inside fs fs := ⟨.refl inside fs, h⟩

theorem Confined.trans (h : Confined inside fs fs') (h' : Confined inside fs' fs'') :
    Confined inside fs fs'' :=
  ⟨h.outside.trans h'.outside, h'.apart⟩

theorem confined_setInode (h : fs.Apart inside) {i : Nat} (file : Inode Time Attr)
    (hi : fs.Hidden inside i) : Confined inside fs (fs.setInode i file) :=
  ⟨setInode_sameOutside file hi, h.of_names fun _ _ hname => hname⟩

section Names

variable [DecidableEq Name] {name : Name}

theorem confined_create (h : fs.Apart inside) (file : Inode Time Attr) (hname : name ∈ inside) :
    Confined inside fs (fs.create name file) :=
  ⟨create_sameOutside file hname, h.create file hname⟩

theorem confined_remove (h : fs.Apart inside) (hname : name ∈ inside) :
    Confined inside fs (fs.remove name) :=
  ⟨remove_sameOutside hname, h.remove name⟩

theorem confined_link (h : fs.Apart inside) {old : Name} (hold : old ∈ inside)
    (hname : name ∈ inside) : Confined inside fs (fs.link old name) :=
  ⟨link_sameOutside hname, h.link hold hname⟩

theorem confined_rename (h : fs.Apart inside) {old : Name} (hold : old ∈ inside)
    (hname : name ∈ inside) : Confined inside fs (fs.rename old name) := by
  rw [rename]
  split_ifs
  · exact .refl h
  · have hlink := confined_link h hold hname
    exact hlink.trans (confined_remove hlink.apart hold)

theorem confined_openTrunc (h : fs.Apart inside) (now : Time) (attr : Attr) (hname : name ∈ inside) :
    Confined inside fs (fs.openTrunc name now attr).1 := by
  cases hi : fs.names name with
  | none =>
      simp only [openTrunc, hi]
      exact confined_create h _ hname
  | some i =>
      simp only [openTrunc, hi]
      exact confined_setInode h _ (h name hname i hi)

theorem confined_overwrite (h : fs.Apart inside) (content : List UInt8) (now : Time) (attr : Attr)
    (hname : name ∈ inside) : Confined inside fs (fs.overwrite name content now attr) := by
  have hopen := confined_openTrunc h now attr hname
  have hino := hopen.apart name hname _ (openTrunc_names_self fs name now attr)
  exact hopen.trans (confined_setInode hopen.apart _ hino)

end Names

end Fs

end FileSystem
