import Bnfs.TheoryRuns

/-! Files shared by sessions. A client takes a copy of a file when it opens it, works on its copy, and publishes the
copy as a whole. Whatever other clients publish in between, a copy holds what was opened with the client's own edits
since, and that is what the client publishes. Clients, paths and contents are arbitrary types. -/

namespace Sessions

open Runs

variable {Client Path Content : Type}

/-- The shared files, the copies of the clients, and which copies have edits that are not published. -/
structure Service (Client Path Content : Type) where
  files : Path → Option Content
  copies : Client → Path → Option Content
  edited : Client → Path → Prop

/-- What a client sees of a path. -/
structure View (Content : Type) where
  file : Option Content
  copy : Option Content
  edited : Prop

def Service.view (s : Service Client Path Content) (i : Client) (p : Path) : View Content :=
  ⟨s.files p, s.copies i p, s.edited i p⟩

inductive Kind (Content : Type) where
  | opens
  | edits (f : Content → Content)
  | publishes

/-- What is done, by which client, to which path. -/
structure Act (Client Path Content : Type) where
  client : Client
  path : Path
  kind : Kind Content

/-- How the view of the client moves. An open takes the file. It may keep the copy if that has edits or if there is no
file; without a file it may also make one, that the client has yet to publish. -/
inductive Shift (blank : Content) (v : View Content) : Kind Content → View Content → Prop
  | fetch : Shift blank v .opens ⟨v.file, some (v.file.getD blank), v.edited⟩
  | keep (h : v.edited ∨ v.file = none) : Shift blank v .opens v
  | make (file : Option Content) (h : v.file = none) (hfile : ∀ content, file = some content → content = blank) :
      Shift blank v .opens ⟨file, some blank, True⟩
  | edit (f : Content → Content) (content : Content) (h : v.copy = some content) :
      Shift blank v (.edits f) ⟨v.file, some (f content), True⟩
  | publish (content : Content) (h : v.edited) (hcopy : v.copy = some content) :
      Shift blank v .publishes ⟨some content, some content, False⟩
  | idle (h : ¬ v.edited) : Shift blank v .publishes v

/-- One act of one client on one path; whatever else anyone sees stays as it is. -/
structure Step (blank : Content) (s : Service Client Path Content) (act : Act Client Path Content)
    (t : Service Client Path Content) : Prop where
  shift : Shift blank (s.view act.client act.path) act.kind (t.view act.client act.path)
  files : ∀ p, p ≠ act.path → t.files p = s.files p
  copies : ∀ i p, i ≠ act.client ∨ p ≠ act.path → t.copies i p = s.copies i p
  edited : ∀ i p, i ≠ act.client ∨ p ≠ act.path → (t.edited i p ↔ s.edited i p)

section Own

variable [DecidableEq Client] [DecidableEq Path] (i : Client) (p : Path)

/-- What an act does to the copy of a client, short of opening the path again. -/
def Act.own (act : Act Client Path Content) (content : Content) : Content :=
  match act.kind with
  | .edits f => if act.client = i ∧ act.path = p then f content else content
  | _ => content

/-- The edits of a client on a path, one after the other. The acts are listed newest first. -/
def edits : List (Act Client Path Content) → Content → Content
  | [], content => content
  | act :: acts, content => act.own i p (edits acts content)

/-- An act that opens the path for the client. -/
def Act.Opens (act : Act Client Path Content) : Prop :=
  act.client = i ∧ act.path = p ∧ act.kind = .opens

variable {i p} {blank : Content} {s t : Service Client Path Content} {act : Act Client Path Content}

omit [DecidableEq Client] [DecidableEq Path] in
/-- A copy of another client or of another path stays as it was. -/
theorem Step.copy_of_ne (hstep : Step blank s act t) (hne : ¬ (act.client = i ∧ act.path = p)) :
    t.copies i p = s.copies i p :=
  hstep.copies i p (not_and_or.mp fun h => hne ⟨h.1.symm, h.2.symm⟩)

theorem Act.own_of_ne (hne : ¬ (act.client = i ∧ act.path = p)) (content : Content) : act.own i p content = content := by
  unfold Act.own
  cases act.kind with
  | opens => rfl
  | edits f => exact if_neg hne
  | publishes => rfl

/-- Between two opens a copy changes by the client's own edits alone. -/
theorem Step.copy (hstep : Step blank s act t) (hopens : ¬ act.Opens i p) :
    t.copies i p = (s.copies i p).map (act.own i p) := by
  by_cases hsame : act.client = i ∧ act.path = p
  · obtain ⟨rfl, rfl⟩ := hsame
    have hshift := hstep.shift
    have hcopy : t.copies act.client act.path = (t.view act.client act.path).copy := rfl
    have hcopy' : s.copies act.client act.path = (s.view act.client act.path).copy := rfl
    rw [hcopy, hcopy']
    unfold Act.own
    revert hshift hopens
    unfold Act.Opens
    generalize t.view act.client act.path = v'
    generalize s.view act.client act.path = v
    cases act.kind with
    | opens => exact fun hopens => absurd ⟨rfl, rfl, rfl⟩ hopens
    | edits f =>
        rintro _ ⟨⟩
        simp only [*, and_self, if_true, Option.map_some]
    | publishes =>
        rintro _ ⟨⟩
        · simp only [*, Option.map_some]
        · exact Option.map_id'.symm
  · rw [hstep.copy_of_ne hsame]
    have hown : act.own i p = id := funext fun content => act.own_of_ne hsame content
    rw [hown, Option.map_id, id]

/-- Over a run in which the client does not open the path again, its copy is the one it had with its own edits. -/
theorem copy_of_run {trace : List (Service Client Path Content × Act Client Path Content)} (hrun : Run (Step blank) s trace t)
    (hopens : ∀ entry ∈ trace, ¬ entry.2.Opens i p) :
    t.copies i p = (s.copies i p).map (edits i p (trace.map Prod.snd)) := by
  induction hrun with
  | nil => exact Option.map_id'.symm
  | @cons trace s' act t hrun hstep ih =>
      rw [hstep.copy (hopens _ List.mem_cons_self), ih fun entry hmem => hopens entry (List.mem_cons_of_mem _ hmem),
        Option.map_map]
      rfl

end Own

section Published

variable {blank : Content} {s t : Service Client Path Content} {i : Client} {p : Path}

/-- A client without edits that opens a path has the file, if there is one. -/
theorem Step.opened (hstep : Step blank s ⟨i, p, .opens⟩ t) (hclean : ¬ s.edited i p) {content : Content}
    (hfile : s.files p = some content) :
    t.copies i p = some content ∧ t.files p = some content ∧ ¬ t.edited i p := by
  have hshift : Shift blank (s.view i p) .opens (t.view i p) := hstep.shift
  have hview : s.view i p = ⟨some content, s.copies i p, s.edited i p⟩ := by rw [Service.view, hfile]
  have hgoal : (t.view i p).copy = some content ∧ (t.view i p).file = some content ∧ ¬ (t.view i p).edited := by
    rw [hview] at hshift
    revert hshift
    generalize t.view i p = v
    intro hshift
    cases hshift with
    | fetch => exact ⟨rfl, rfl, hclean⟩
    | keep h => exact absurd h (not_or.mpr ⟨hclean, Option.some_ne_none content⟩)
    | make file h _ => cases h
  exact hgoal

/-- What a client publishes is its copy. -/
theorem Step.published (hstep : Step blank s ⟨i, p, .publishes⟩ t) (hedited : s.edited i p) {content : Content}
    (hcopy : s.copies i p = some content) : t.files p = some content ∧ ¬ t.edited i p := by
  have hshift : Shift blank (s.view i p) .publishes (t.view i p) := hstep.shift
  have hview : s.view i p = ⟨s.files p, some content, s.edited i p⟩ := by rw [Service.view, hcopy]
  have hgoal : (t.view i p).file = some content ∧ ¬ (t.view i p).edited := by
    rw [hview] at hshift
    revert hshift
    generalize t.view i p = v
    intro hshift
    cases hshift with
    | publish _ h hcopy =>
        cases hcopy
        exact ⟨rfl, not_false⟩
    | idle h => exact absurd hedited h
  exact hgoal

variable [DecidableEq Client] [DecidableEq Path]

/-- A whole session: what a client publishes is the file it opened with its edits, whatever the others did meanwhile. -/
theorem session_published {u : Service Client Path Content} {v : Service Client Path Content}
    (hopen : Step blank s ⟨i, p, .opens⟩ t) (hclean : ¬ s.edited i p) {content : Content} (hfile : s.files p = some content)
    {trace : List (Service Client Path Content × Act Client Path Content)} (hrun : Run (Step blank) t trace u)
    (hopens : ∀ entry ∈ trace, ¬ entry.2.Opens i p) (hpublish : Step blank u ⟨i, p, .publishes⟩ v) (hedited : u.edited i p) :
    u.copies i p = some (edits i p (trace.map Prod.snd) content) ∧
      v.files p = some (edits i p (trace.map Prod.snd) content) := by
  have hcopy : u.copies i p = some (edits i p (trace.map Prod.snd) content) := by
    rw [copy_of_run hrun hopens, (hopen.opened hclean hfile).1]
    rfl
  exact ⟨hcopy, (hpublish.published hedited hcopy).1⟩

end Published

section Derived

variable {blank : Content} {start s t : Service Client Path Content} {act : Act Client Path Content} {p : Path}
  {acts : List (Act Client Path Content)} {content : Content}

/-- What an act does to the copy it is about. -/
def Act.apply (act : Act Client Path Content) (content : Content) : Content :=
  match act.kind with
  | .edits f => f content
  | _ => content

/-- The content comes of one that the path had at the start, or of a blank, by some of the edits of the path, each at most
once and in the order in which they were made. The acts are listed newest first. -/
def Derived (blank : Content) (start : Service Client Path Content) (acts : List (Act Client Path Content)) (p : Path)
    (content : Content) : Prop :=
  ∃ (base : Content) (made : List (Act Client Path Content)),
    (start.files p = some base ∨ (∃ i, start.copies i p = some base) ∨ base = blank) ∧
      made.Sublist acts ∧ (∀ act ∈ made, act.path = p ∧ ∃ f, act.kind = .edits f) ∧ content = made.foldr Act.apply base

theorem Derived.later (h : Derived blank start acts p content) (act : Act Client Path Content) :
    Derived blank start (act :: acts) p content := by
  obtain ⟨base, made, hbase, hmade, hpath, hcontent⟩ := h
  exact ⟨base, made, hbase, hmade.cons act, hpath, hcontent⟩

theorem Derived.edit (h : Derived blank start acts act.path content) {f : Content → Content}
    (hkind : act.kind = .edits f) : Derived blank start (act :: acts) act.path (f content) := by
  obtain ⟨base, made, hbase, hmade, hall, rfl⟩ := h
  refine ⟨base, act :: made, hbase, hmade.cons_cons act, fun other hmem => ?_, ?_⟩
  · rcases List.mem_cons.mp hmem with rfl | hmem
    · exact ⟨rfl, f, hkind⟩
    · exact hall other hmem
  · rw [List.foldr_cons, Act.apply, hkind]

/-- All that a client sees of a path is so. -/
def View.All (P : Content → Prop) (v : View Content) : Prop :=
  (∀ content, v.file = some content → P content) ∧ ∀ content, v.copy = some content → P content

/-- What a client sees after an act is what it has seen, a blank, or its copy with an edit. -/
theorem Shift.all {P Q : Content → Prop} {v v' : View Content} {kind : Kind Content} (h : Shift blank v kind v')
    (hblank : Q blank) (hlater : ∀ content, P content → Q content)
    (hedit : ∀ f, kind = .edits f → ∀ content, P content → Q (f content)) (hv : v.All P) : v'.All Q := by
  obtain ⟨hfile, hcopy⟩ := hv
  have hfile' : ∀ content, v.file = some content → Q content := fun content heq => hlater content (hfile content heq)
  have hcopy' : ∀ content, v.copy = some content → Q content := fun content heq => hlater content (hcopy content heq)
  cases h with
  | fetch =>
      refine ⟨hfile', fun content heq => ?_⟩
      cases hv : v.file with
      | none =>
          rw [hv] at heq
          cases heq
          exact hblank
      | some file =>
          rw [hv] at heq
          cases heq
          exact hfile' _ hv
  | keep _ => exact ⟨hfile', hcopy'⟩
  | make file _ hmade =>
      refine ⟨fun content heq => ?_, fun content heq => ?_⟩
      · rw [hmade content heq]
        exact hblank
      · cases heq
        exact hblank
  | edit f content hv =>
      refine ⟨hfile', fun edited heq => ?_⟩
      cases heq
      exact hedit f rfl content (hcopy content hv)
  | publish content _ hv =>
      refine ⟨fun published heq => ?_, fun published heq => ?_⟩
      · cases heq
        exact hcopy' _ hv
      · cases heq
        exact hcopy' _ hv
  | idle _ => exact ⟨hfile', hcopy'⟩

/-- Nothing comes out of thin air: in a run every file and every copy is derived. -/
theorem derived_of_run {trace : List (Service Client Path Content × Act Client Path Content)}
    (hrun : Run (Step blank) start trace t) :
    (∀ p content, t.files p = some content → Derived blank start (trace.map Prod.snd) p content) ∧
      ∀ i p content, t.copies i p = some content → Derived blank start (trace.map Prod.snd) p content := by
  induction hrun with
  | nil =>
      refine ⟨fun p content hfile => ?_, fun i p content hcopy => ?_⟩
      · exact ⟨content, [], Or.inl hfile, .slnil, fun _ hmem => absurd hmem List.not_mem_nil, rfl⟩
      · exact ⟨content, [], Or.inr (Or.inl ⟨i, hcopy⟩), .slnil, fun _ hmem => absurd hmem List.not_mem_nil, rfl⟩
  | @cons trace s act t hrun hstep ih =>
      obtain ⟨hfiles, hcopies⟩ := ih
      have hblank : Derived blank start (act :: trace.map Prod.snd) act.path blank :=
        ⟨blank, [], Or.inr (Or.inr rfl), List.nil_sublist _, fun _ hmem => absurd hmem List.not_mem_nil, rfl⟩
      have hacting := hstep.shift.all hblank (fun _ h => Derived.later h act) (fun _ hkind _ h => Derived.edit h hkind)
        ⟨hfiles act.path, hcopies act.client act.path⟩
      rw [List.map_cons]
      refine ⟨fun p content hfile => ?_, fun i p content hcopy => ?_⟩
      · by_cases hp : p = act.path
        · subst hp
          exact hacting.1 content hfile
        · exact Derived.later (hfiles p content ((hstep.files p hp).symm.trans hfile)) act
      · by_cases hsame : i = act.client ∧ p = act.path
        · obtain ⟨rfl, rfl⟩ := hsame
          exact hacting.2 content hcopy
        · exact Derived.later (hcopies i p content ((hstep.copies i p (not_and_or.mp hsame)).symm.trans hcopy)) act

end Derived

end Sessions
