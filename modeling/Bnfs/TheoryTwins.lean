import Bnfs.TheoryConfined

/-! Two file systems that agree on a part of their names. The inode numbers may differ, so a link says which
inode of the one stands for which of the other; linked inodes have the same bytes. The first may have files
under the shared names that the second lacks, and those are linked to nothing. -/

namespace FileSystem

namespace Fs

variable {Name Time Attr : Type} {shared : Set Name} {fs fs₁ fs₂ fs' fs₁' : Fs Name Time Attr}
  {name : Name} {i j : Nat}

/-- The shared names lead where they led, and what they alone lead to is what it was. -/
structure Aside (shared : Set Name) (fs fs₁ : Fs Name Time Attr) : Prop where
  names : ∀ n ∈ shared, fs₁.names n = fs.names n
  inode : ∀ k < fs.next, fs.Hidden shared k → fs₁.inode k = fs.inode k
  hidden : ∀ k < fs.next, fs.Hidden shared k → fs₁.Hidden shared k
  next : fs.next ≤ fs₁.next

/-- One shared name leads to an inode, which it led to before or which is new; otherwise the change is
beside the shared names. -/
structure Sets (shared : Set Name) (name : Name) (i : Nat) (fs fs₁ : Fs Name Time Attr) : Prop where
  self : fs₁.names name = some i
  own : fs.names name = some i ∨ (fs.names name = none ∧ fs.next ≤ i)
  names : ∀ n ∈ shared, n ≠ name → fs₁.names n = fs.names n
  inode : ∀ k < fs.next, fs.Hidden shared k → k ≠ i → fs₁.inode k = fs.inode k
  hidden : ∀ k, k < fs.next ∨ k = i → fs.Hidden shared k → fs₁.Hidden shared k
  next : fs.next ≤ fs₁.next

/-- No name leads to a number that is not given out. -/
theorem hidden_of_next_le (h : fs.next ≤ i) : fs.Hidden shared i := by
  intro n hn
  have hlt := fs.named_lt n i hn
  omega

theorem Sole.hidden (h : fs.Sole name) (hname : name ∈ shared) (hi : fs.names name = some i) :
    fs.Hidden shared i := by
  intro n hn
  rw [h i hi n hn]
  exact hname

theorem Aside.refl (shared : Set Name) (fs : Fs Name Time Attr) : Aside shared fs fs :=
  ⟨fun _ _ => rfl, fun _ _ _ => rfl, fun _ _ h => h, Nat.le_refl _⟩

theorem Aside.trans (h : Aside shared fs fs₁) (h' : Aside shared fs₁ fs₂) : Aside shared fs fs₂ where
  names n hn := (h'.names n hn).trans (h.names n hn)
  inode k hk hhid :=
    (h'.inode k (Nat.lt_of_lt_of_le hk h.next) (h.hidden k hk hhid)).trans (h.inode k hk hhid)
  hidden k hk hhid := h'.hidden k (Nat.lt_of_lt_of_le hk h.next) (h.hidden k hk hhid)
  next := Nat.le_trans h.next h'.next

theorem Sets.refl (shared : Set Name) (h : fs.names name = some i) : Sets shared name i fs fs :=
  ⟨h, Or.inl h, fun _ _ _ => rfl, fun _ _ _ _ => rfl, fun _ _ h => h, Nat.le_refl _⟩

theorem Sets.trans (h : Sets shared name i fs fs₁) (h' : Sets shared name i fs₁ fs₂) :
    Sets shared name i fs fs₂ where
  self := h'.self
  own := h.own
  names n hn hne := (h'.names n hn hne).trans (h.names n hn hne)
  inode k hk hhid hne :=
    (h'.inode k (Nat.lt_of_lt_of_le hk h.next) (h.hidden k (Or.inl hk) hhid) hne).trans
      (h.inode k hk hhid hne)
  hidden k hk hhid :=
    h'.hidden k (hk.imp_left fun hlt => Nat.lt_of_lt_of_le hlt h.next) (h.hidden k hk hhid)
  next := Nat.le_trans h.next h'.next

theorem Aside.sets (h : Aside shared fs fs₁) (hname : name ∈ shared) (h' : Sets shared name i fs₁ fs₂) :
    Sets shared name i fs fs₂ where
  self := h'.self
  own := by
    have hsame := h.names name hname
    refine h'.own.imp hsame.symm.trans fun hnew => ?_
    exact ⟨hsame.symm.trans hnew.1, Nat.le_trans h.next hnew.2⟩
  names n hn hne := (h'.names n hn hne).trans (h.names n hn)
  inode k hk hhid hne :=
    (h'.inode k (Nat.lt_of_lt_of_le hk h.next) (h.hidden k hk hhid) hne).trans (h.inode k hk hhid)
  hidden k hk hhid := by
    rcases hk with hlt | rfl
    · exact h'.hidden k (Or.inl (Nat.lt_of_lt_of_le hlt h.next)) (h.hidden k hlt hhid)
    · refine h'.hidden k (Or.inr rfl) ?_
      rcases h'.own with hold | ⟨_, hnew⟩
      · have hlt := fs.named_lt name k ((h.names name hname).symm.trans hold)
        exact h.hidden k hlt hhid
      · exact hidden_of_next_le hnew
  next := Nat.le_trans h.next h'.next

theorem Sets.aside (h : Sets shared name i fs fs₁) (hname : name ∈ shared) (h' : Aside shared fs₁ fs₂) :
    Sets shared name i fs fs₂ where
  self := (h'.names name hname).trans h.self
  own := h.own
  names n hn hne := (h'.names n hn).trans (h.names n hn hne)
  inode k hk hhid hne :=
    (h'.inode k (Nat.lt_of_lt_of_le hk h.next) (h.hidden k (Or.inl hk) hhid)).trans (h.inode k hk hhid hne)
  hidden k hk hhid := by
    have hlt : k < fs₁.next := by
      rcases hk with hlt | rfl
      · exact Nat.lt_of_lt_of_le hlt h.next
      · exact fs₁.named_lt name k h.self
    exact h'.hidden k hlt (h.hidden k hk hhid)
  next := Nat.le_trans h.next h'.next

/-- A shared name that shares its inode with no other leads to one that no other name leads to. -/
theorem Sets.hidden_self (h : Sets shared name i fs fs₁) (hname : name ∈ shared) (hsole : fs.Sole name) :
    fs₁.Hidden shared i := by
  refine h.hidden i (Or.inr rfl) ?_
  rcases h.own with hold | ⟨_, hnew⟩
  · exact hsole.hidden hname hold
  · exact hidden_of_next_le hnew

/-- What is changed beside them afterwards leaves the inode as it is. -/
theorem Sets.inode_aside (h : Sets shared name i fs fs₁) (hname : name ∈ shared) (hsole : fs.Sole name)
    (h' : Aside shared fs₁ fs₂) : fs₂.inode i = fs₁.inode i :=
  h'.inode i (fs₁.named_lt name i h.self) (h.hidden_self hname hsole)

/-- No shared name comes to share its inode. -/
theorem Sets.sole (h : Sets shared name i fs fs₁) (hname : name ∈ shared)
    (hsole : ∀ n ∈ shared, fs.Sole n) : ∀ n ∈ shared, fs₁.Sole n := by
  have hother : ∀ m ∈ shared, m ≠ name → fs₁.names m ≠ some i := by
    intro m hm hne hmi
    rw [h.names m hm hne] at hmi
    rcases h.own with hold | ⟨_, hnew⟩
    · exact hne (hsole name hname i hold m hmi)
    · have hlt := fs.named_lt m i hmi
      omega
  intro n hn k hk m hm
  by_cases hself : n = name
  · subst hself
    cases hk.symm.trans h.self
    by_contra hne
    exact hother m (h.hidden_self hname (hsole n hn) m hm) hne hm
  · have hk₀ : fs.names n = some k := (h.names n hn hself).symm.trans hk
    have hhid : fs₁.Hidden shared k :=
      h.hidden k (Or.inl (fs.named_lt n k hk₀)) ((hsole n hn).hidden hn hk₀)
    have hms : m ≠ name := by
      rintro rfl
      cases hm.symm.trans h.self
      exact hother n hn hself hk
    exact hsole n hn k hk₀ m ((h.names m (hhid m hm) hms).symm.trans hm)

theorem Aside.sole (h : Aside shared fs fs₁) (hsole : ∀ n ∈ shared, fs.Sole n) :
    ∀ n ∈ shared, fs₁.Sole n := by
  intro n hn k hk m hm
  have hk₀ : fs.names n = some k := (h.names n hn).symm.trans hk
  have hhid : fs₁.Hidden shared k := h.hidden k (fs.named_lt n k hk₀) ((hsole n hn).hidden hn hk₀)
  exact hsole n hn k hk₀ m ((h.names m (hhid m hm)).symm.trans hm)

theorem aside_setInode (file : Inode Time Attr) (hname : name ∉ shared) (hi : fs.names name = some i) :
    Aside shared fs (fs.setInode i file) where
  names _ _ := rfl
  inode k _ hhid := by
    refine setInode_of_ne fs file ?_
    rintro rfl
    exact hname (hhid name hi)
  hidden _ _ hhid := hhid
  next := Nat.le_refl _

theorem sets_setInode (shared : Set Name) (file : Inode Time Attr) (hi : fs.names name = some i) :
    Sets shared name i fs (fs.setInode i file) where
  self := hi
  own := Or.inl hi
  names _ _ _ := rfl
  inode _ _ _ hne := setInode_of_ne fs file hne
  hidden _ _ hhid := hhid
  next := Nat.le_refl _

section Names

variable [DecidableEq Name]

theorem aside_create (file : Inode Time Attr) (hname : name ∉ shared) :
    Aside shared fs (fs.create name file) where
  names n hn := create_names_of_ne fs file fun heq => hname (heq ▸ hn)
  inode k hk _ := create_inode_of_ne fs name file (Nat.ne_of_lt hk)
  hidden k hk hhid n hn := by
    by_cases hself : n = name
    · rw [hself, create_names_self] at hn
      have heq := Option.some.inj hn
      omega
    · rw [create_names_of_ne fs file hself] at hn
      exact hhid n hn
  next := Nat.le_succ _

theorem sets_create (file : Inode Time Attr) (hname : name ∈ shared) (hnone : fs.names name = none) :
    Sets shared name fs.next fs (fs.create name file) where
  self := create_names_self fs name file
  own := Or.inr ⟨hnone, Nat.le_refl _⟩
  names n _ hne := create_names_of_ne fs file hne
  inode k _ _ hne := create_inode_of_ne fs name file hne
  hidden k _ hhid n hn := by
    by_cases hself : n = name
    · rw [hself]
      exact hname
    · rw [create_names_of_ne fs file hself] at hn
      exact hhid n hn
  next := Nat.le_succ _

theorem aside_openTrunc (now : Time) (attr : Attr) (hname : name ∉ shared) :
    Aside shared fs (fs.openTrunc name now attr).1 := by
  cases hi : fs.names name with
  | none =>
      simp only [openTrunc, hi]
      exact aside_create _ hname
  | some i =>
      simp only [openTrunc, hi]
      exact aside_setInode _ hname hi

theorem sets_openTrunc (now : Time) (attr : Attr) (hname : name ∈ shared) :
    Sets shared name (fs.openTrunc name now attr).2 fs (fs.openTrunc name now attr).1 := by
  cases hi : fs.names name with
  | none =>
      simp only [openTrunc, hi]
      exact sets_create _ hname hi
  | some i =>
      simp only [openTrunc, hi]
      exact sets_setInode shared _ hi

theorem aside_overwrite (content : List UInt8) (now : Time) (attr : Attr) (hname : name ∉ shared) :
    Aside shared fs (fs.overwrite name content now attr) :=
  (aside_openTrunc now attr hname).trans (aside_setInode _ hname (openTrunc_names_self fs name now attr))

theorem sets_overwrite (content : List UInt8) (now : Time) (attr : Attr) (hname : name ∈ shared) :
    Sets shared name (fs.openTrunc name now attr).2 fs (fs.overwrite name content now attr) :=
  (sets_openTrunc now attr hname).trans (sets_setInode shared _ (openTrunc_names_self fs name now attr))

/-- Where the names lead after a move of a name that shares its inode with no other. -/
theorem rename_names {old new : Name} (hsole : fs.Sole old) (hne : old ≠ new) (n : Name) :
    (fs.rename old new).names n =
      if n = new then fs.names old else if n = old then none else fs.names n := by
  split_ifs with hnew hold
  · rw [hnew, rename_names_new]
  · rw [hold, rename]
    split_ifs with hsame
    · cases hi : fs.names old with
      | none => rfl
      | some i => exact absurd (hsole i hi new (hsame.symm.trans hi)).symm hne
    · exact remove_names_self _ old
  · exact rename_names_of_ne fs hold hnew

end Names

/-- Linked inodes have the same bytes, and only shared names lead to them. A shared name that the second file
system has leads to linked inodes in both, and one that leads to a linked inode in the first is there in
the second. -/
structure Twins (shared : Set Name) (link : Nat → Nat → Prop) (fs fs' : Fs Name Time Attr) : Prop where
  content : ∀ i j, link i j → (fs.inode i).content = (fs'.inode j).content
  left : ∀ i j, link i j → i < fs.next ∧ fs.Hidden shared i
  right : ∀ i j, link i j → j < fs'.next ∧ fs'.Hidden shared j
  pair : ∀ i j i' j', link i j → link i' j' → (i = i' ↔ j = j')
  forward : ∀ n ∈ shared, ∀ j, fs'.names n = some j → ∃ i, fs.names n = some i ∧ link i j
  back : ∀ n ∈ shared, ∀ i j, link i j → fs.names n = some i → fs'.names n = some j
  sole : ∀ n ∈ shared, fs.Sole n

variable {link : Nat → Nat → Prop}

/-- A second file system without files under the shared names. -/
theorem Twins.start (hsole : ∀ n ∈ shared, fs.Sole n) (hnone : ∀ n ∈ shared, fs'.names n = none) :
    Twins shared (fun _ _ => False) fs fs' where
  content _ _ h := h.elim
  left _ _ h := h.elim
  right _ _ h := h.elim
  pair _ _ _ _ h := h.elim
  forward n hn j hj := by
    rw [hnone n hn] at hj
    cases hj
  back _ _ _ _ h := h.elim
  sole := hsole

namespace Twins

theorem names_ne_none (h : Twins shared link fs fs') (hname : name ∈ shared)
    (hne : fs'.names name ≠ none) : fs.names name ≠ none := by
  obtain ⟨j, hj⟩ := Option.ne_none_iff_exists'.mp hne
  obtain ⟨i, hi, _⟩ := h.forward name hname j hj
  rw [hi]
  exact Option.some_ne_none i

/-- What a name leads to in both is linked. -/
theorem linked (h : Twins shared link fs fs') (hname : name ∈ shared) (hi : fs.names name = some i)
    (hj : fs'.names name = some j) : link i j := by
  obtain ⟨k, hk, hlink⟩ := h.forward name hname j hj
  cases hi.symm.trans hk
  exact hlink

theorem sole_right (h : Twins shared link fs fs') : ∀ n ∈ shared, fs'.Sole n := by
  intro n hn j hj m hm
  obtain ⟨i, hi, hlink⟩ := h.forward n hn j hj
  obtain ⟨k, hk, hlink'⟩ := h.forward m ((h.right i j hlink).2 m hm) j hm
  exact h.sole n hn i hi m (hk.trans (congrArg some ((h.pair k j i j hlink' hlink).mpr rfl)))

theorem aside (h : Twins shared link fs fs') (ha : Aside shared fs fs₁) (ha' : Aside shared fs' fs₁') :
    Twins shared link fs₁ fs₁' where
  content i j hlink := by
    rw [ha.inode i (h.left i j hlink).1 (h.left i j hlink).2,
      ha'.inode j (h.right i j hlink).1 (h.right i j hlink).2]
    exact h.content i j hlink
  left i j hlink :=
    ⟨Nat.lt_of_lt_of_le (h.left i j hlink).1 ha.next, ha.hidden i (h.left i j hlink).1 (h.left i j hlink).2⟩
  right i j hlink :=
    ⟨Nat.lt_of_lt_of_le (h.right i j hlink).1 ha'.next,
      ha'.hidden j (h.right i j hlink).1 (h.right i j hlink).2⟩
  pair := h.pair
  forward n hn j hj := by
    rw [ha'.names n hn] at hj
    rw [ha.names n hn]
    exact h.forward n hn j hj
  back n hn i j hlink hi := by
    rw [ha.names n hn] at hi
    rw [ha'.names n hn]
    exact h.back n hn i j hlink hi
  sole := ha.sole h.sole

/-- When a name is set in both, what was linked to one of the two inodes was linked to the other. -/
theorem link_iff (h : Twins shared link fs fs') (hname : name ∈ shared) (hs : Sets shared name i fs fs₁)
    (hs' : Sets shared name j fs' fs₁') {a b : Nat} (hlink : link a b) : a = i ↔ b = j := by
  constructor
  · rintro rfl
    rcases hs.own with hold | ⟨_, hnew⟩
    · have hb := h.back name hname a b hlink hold
      rcases hs'.own with hold' | ⟨hnone, _⟩
      · exact Option.some.inj (hb.symm.trans hold')
      · rw [hb] at hnone
        cases hnone
    · have hlt := (h.left a b hlink).1
      omega
  · rintro rfl
    rcases hs'.own with hold' | ⟨_, hnew⟩
    · obtain ⟨k, hk, hlink'⟩ := h.forward name hname b hold'
      have hak : a = k := (h.pair a b k b hlink hlink').mpr rfl
      rcases hs.own with hold | ⟨hnone, _⟩
      · exact hak.trans (Option.some.inj (hk.symm.trans hold))
      · rw [hk] at hnone
        cases hnone
    · have hlt := (h.right a b hlink).1
      omega

/-- A name that is set in both to the same bytes links its inodes. -/
theorem sets (h : Twins shared link fs fs') (hname : name ∈ shared) (hs : Sets shared name i fs fs₁)
    (hs' : Sets shared name j fs' fs₁') (hcontent : (fs₁.inode i).content = (fs₁'.inode j).content) :
    Twins shared (fun a b => link a b ∨ (a = i ∧ b = j)) fs₁ fs₁' where
  content a b hlink := by
    rcases hlink with hlink | ⟨rfl, rfl⟩
    · by_cases ha : a = i
      · rw [ha, (h.link_iff hname hs hs' hlink).mp ha]
        exact hcontent
      · have hb : b ≠ j := fun hb => ha ((h.link_iff hname hs hs' hlink).mpr hb)
        rw [hs.inode a (h.left a b hlink).1 (h.left a b hlink).2 ha,
          hs'.inode b (h.right a b hlink).1 (h.right a b hlink).2 hb]
        exact h.content a b hlink
    · exact hcontent
  left a b hlink := by
    rcases hlink with hlink | ⟨rfl, rfl⟩
    · have ⟨hlt, hhid⟩ := h.left a b hlink
      exact ⟨Nat.lt_of_lt_of_le hlt hs.next, hs.hidden a (Or.inl hlt) hhid⟩
    · exact ⟨fs₁.named_lt name a hs.self, hs.hidden_self hname (h.sole name hname)⟩
  right a b hlink := by
    rcases hlink with hlink | ⟨rfl, rfl⟩
    · have ⟨hlt, hhid⟩ := h.right a b hlink
      exact ⟨Nat.lt_of_lt_of_le hlt hs'.next, hs'.hidden b (Or.inl hlt) hhid⟩
    · exact ⟨fs₁'.named_lt name b hs'.self, hs'.hidden_self hname (h.sole_right name hname)⟩
  pair a b a' b' hlink hlink' := by
    rcases hlink with hlink | ⟨rfl, rfl⟩
    · rcases hlink' with hlink' | ⟨rfl, rfl⟩
      · exact h.pair a b a' b' hlink hlink'
      · exact h.link_iff hname hs hs' hlink
    · rcases hlink' with hlink' | ⟨rfl, rfl⟩
      · rw [eq_comm, @eq_comm _ b]
        exact h.link_iff hname hs hs' hlink'
      · exact iff_of_true rfl rfl
  forward n hn b hb := by
    by_cases hself : n = name
    · subst hself
      cases hb.symm.trans hs'.self
      exact ⟨i, hs.self, Or.inr ⟨rfl, rfl⟩⟩
    · rw [hs'.names n hn hself] at hb
      rw [hs.names n hn hself]
      obtain ⟨a, ha, hlink⟩ := h.forward n hn b hb
      exact ⟨a, ha, Or.inl hlink⟩
  back n hn a b hlink ha := by
    by_cases hself : n = name
    · subst hself
      cases ha.symm.trans hs.self
      rcases hlink with hlink | ⟨_, rfl⟩
      · rw [(h.link_iff hname hs hs' hlink).mp rfl]
        exact hs'.self
      · exact hs'.self
    · rw [hs.names n hn hself] at ha
      rw [hs'.names n hn hself]
      rcases hlink with hlink | ⟨rfl, rfl⟩
      · exact h.back n hn a b hlink ha
      · rcases hs.own with hold | ⟨_, hnew⟩
        · exact absurd (h.sole name hname a hold n ha) hself
        · have hlt := fs.named_lt n a ha
          omega
  sole := hs.sole hname h.sole

/-- Linked inodes are changed in place to the same bytes. -/
theorem rewrite (h : Twins shared link fs fs') (hlink : link i j) {file file' : Inode Time Attr}
    (hcontent : file.content = file'.content) :
    Twins shared link (fs.setInode i file) (fs'.setInode j file') where
  content a b hab := by
    by_cases ha : a = i
    · rw [ha, (h.pair a b i j hab hlink).mp ha, setInode_self, setInode_self]
      exact hcontent
    · have hb : b ≠ j := fun hb => ha ((h.pair a b i j hab hlink).mpr hb)
      rw [setInode_of_ne fs file ha, setInode_of_ne fs' file' hb]
      exact h.content a b hab
  left := h.left
  right := h.right
  pair := h.pair
  forward := h.forward
  back := h.back
  sole n hn := (h.sole n hn).of_names_eq (setInode_names fs i file)

section Names

variable [DecidableEq Name]

theorem remove (h : Twins shared link fs fs') (name : Name) :
    Twins shared link (fs.remove name) (fs'.remove name) := by
  have hnames : ∀ (fs : Fs Name Time Attr) n k, (fs.remove name).names n = some k →
      n ≠ name ∧ fs.names n = some k := by
    intro fs n k hk
    by_cases hself : n = name
    · rw [hself, remove_names_self] at hk
      cases hk
    · exact ⟨hself, (remove_names_of_ne fs hself).symm.trans hk⟩
  refine ⟨h.content, fun a b hlink => ?_, fun a b hlink => ?_, h.pair, fun n hn b hb => ?_,
    fun n hn a b hlink ha => ?_, fun n hn => remove_sole name (h.sole n hn)⟩
  · exact ⟨(h.left a b hlink).1, fun n hn => (h.left a b hlink).2 n (hnames fs n a hn).2⟩
  · exact ⟨(h.right a b hlink).1, fun n hn => (h.right a b hlink).2 n (hnames fs' n b hn).2⟩
  · obtain ⟨hself, hb⟩ := hnames fs' n b hb
    rw [remove_names_of_ne fs hself]
    exact h.forward n hn b hb
  · obtain ⟨hself, ha⟩ := hnames fs n a ha
    rw [remove_names_of_ne fs' hself]
    exact h.back n hn a b hlink ha

theorem rename (h : Twins shared link fs fs') {old new : Name} (hold : old ∈ shared) (hnew : new ∈ shared) :
    Twins shared link (fs.rename old new) (fs'.rename old new) := by
  by_cases hne : old = new
  · subst hne
    rw [Fs.rename, Fs.rename, if_pos rfl, if_pos rfl]
    exact h
  have hnames := rename_names (h.sole old hold) hne
  have hnames' := rename_names (h.sole_right old hold) hne
  have hhidden : ∀ {fs : Fs Name Time Attr} {k}, fs.Hidden shared k → (∀ n, (fs.rename old new).names n =
      if n = new then fs.names old else if n = old then none else fs.names n) →
      (fs.rename old new).Hidden shared k := by
    intro fs k hk hnames n hn
    rw [hnames] at hn
    split_ifs at hn with hself
    · exact hself ▸ hnew
    · exact hk n hn
  refine ⟨fun a b hlink => ?_, fun a b hlink => ?_, fun a b hlink => ?_, h.pair, fun n hn b hb => ?_,
    fun n hn a b hlink ha => ?_, fun n hn => ?_⟩
  · rw [rename_inode, rename_inode]
    exact h.content a b hlink
  · rw [rename_next]
    exact ⟨(h.left a b hlink).1, hhidden (h.left a b hlink).2 hnames⟩
  · rw [rename_next]
    exact ⟨(h.right a b hlink).1, hhidden (h.right a b hlink).2 hnames'⟩
  · rw [hnames'] at hb
    rw [hnames]
    split_ifs at hb ⊢
    · exact h.forward old hold b hb
    · exact h.forward n hn b hb
  · rw [hnames] at ha
    rw [hnames']
    split_ifs at ha ⊢
    · exact h.back old hold a b hlink ha
    · exact h.back n hn a b hlink ha
  · by_cases hself : n = new
    · rw [hself]
      exact rename_sole_new new (h.sole old hold)
    · exact rename_sole (h.sole n hn) hself

end Names

end Twins

end Fs

end FileSystem
