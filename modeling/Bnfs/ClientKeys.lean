import Bnfs.ExportPaths
import Bnfs.ModelCache
import Bnfs.TheoryShell
import Bnfs.TheoryStream

/-! The names of the local copies: how `getHashedPath` prints a digest, what tells the names of two paths apart, and
what becomes of a name in a path and in the `cp` commands of `getCheckInTemp` and `commitToCache`. -/

namespace Bnfs

open Paths Shell Streams

def SHA256_DIGEST_LENGTH : Nat := 32

/-- `stringstream ss` -/
def stringstream : OStream UInt8 := ⟨[], 10, 0, 32⟩

/-- `ss << hex << setw(2) << setfill('0') << ((int)hash[i])` -/
def printByte (ss : OStream UInt8) (b : UInt8) : OStream UInt8 :=
  (((ss.setbase 16).setw 2).setfill 48).put hexDigit b.toNat

/-- The loop of `getHashedPath`, and `ss.str()`. -/
def renderDigest (hash : Fin SHA256_DIGEST_LENGTH → UInt8) : Bytes :=
  ((List.finRange SHA256_DIGEST_LENGTH).foldl (fun ss i => printByte ss (hash i)) stringstream).text

/-- One round prints two digits, whatever format the stream had. It leaves the base and the fill character, not the
width. -/
theorem printByte_eq (ss : OStream UInt8) (b : UInt8) : printByte ss b = ⟨ss.text ++ hexByte b, 16, 0, 48⟩ := by
  have hlt : b.toNat < 16 ^ 2 := by
    have hbyte := b.toNat_lt
    omega
  have hdigits := digitsAppend_two (by decide) hlt
  have hformat : ((ss.setbase 16).setw 2).setfill 48 = ⟨ss.text, 16, 2, hexDigit 0⟩ := rfl
  rw [printByte, hformat, OStream.put_of_fill rfl Nat.zero_lt_two]
  dsimp only
  rw [hdigits]
  rfl

-- A second number without a `setw` of its own has one digit.
example : (((stringstream.setbase 16).setw 2).setfill 48 |>.put hexDigit 10 |>.put hexDigit 5).text = ascii "0a5" := by
  decide

theorem foldl_printByte (bytes : Bytes) (ss : OStream UInt8) :
    (bytes.foldl printByte ss).text = ss.text ++ bytes.flatMap hexByte := by
  induction bytes generalizing ss with
  | nil => exact (List.append_nil _).symm
  | cons b bytes ih =>
      rw [List.foldl_cons, ih, printByte_eq, List.flatMap_cons, ← List.append_assoc]

theorem renderDigest_eq (hash : Fin SHA256_DIGEST_LENGTH → UInt8) :
    renderDigest hash = (List.ofFn hash).flatMap hexByte := by
  rw [renderDigest, ← List.foldl_map, foldl_printByte, List.ofFn_eq_map]
  rfl

theorem renderDigest_injective : Function.Injective renderDigest := by
  intro hash hash' h
  rw [renderDigest_eq, renderDigest_eq] at h
  exact List.ofFn_injective (flatMap_hexByte_injective h)

theorem length_flatMap_hexByte (bytes : Bytes) : (bytes.flatMap hexByte).length = 2 * bytes.length := by
  induction bytes with
  | nil => rfl
  | cons b bytes ih =>
      have hbyte : (hexByte b).length = 2 := rfl
      rw [List.flatMap_cons, List.length_append, ih, List.length_cons, hbyte]
      omega

theorem length_renderDigest (hash : Fin SHA256_DIGEST_LENGTH → UInt8) : (renderDigest hash).length = 64 := by
  rw [renderDigest_eq, length_flatMap_hexByte, List.length_ofFn]
  rfl

def hexDigits : Bytes := ascii "0123456789abcdef"

theorem hexDigit_mem {d : Nat} (hd : d < 16) : hexDigit d ∈ hexDigits := by
  have hall : ∀ d < 16, hexDigit d ∈ hexDigits := by decide
  exact hall d hd

theorem renderDigest_digits (hash : Fin SHA256_DIGEST_LENGTH → UInt8) : ∀ c ∈ renderDigest hash, c ∈ hexDigits := by
  intro c hc
  rw [renderDigest_eq] at hc
  obtain ⟨b, _, hb⟩ := List.mem_flatMap.mp hc
  have hlt := b.toNat_lt
  rcases List.mem_cons.mp hb with rfl | hb
  · exact hexDigit_mem (by omega)
  · rw [List.mem_singleton.mp hb]
    exact hexDigit_mem (by omega)

/-- A name of hexadecimal digits stays one component behind a directory, and leads down. -/
theorem components_append_name (dir : Bytes) {name : Bytes} (hne : name ≠ []) (hdigits : ∀ c ∈ name, c ∈ hexDigits) :
    components (dir ++ ascii "/" ++ name) = components dir ++ [.down name] := by
  have hslash : slash ∉ name := fun hmem => absurd (hdigits slash hmem) (by decide)
  have hsplit : (dir ++ ascii "/" ++ name).splitOn slash = dir.splitOn slash ++ [name] := by
    rw [List.append_assoc, ← List.splitOn_eq_singleton hslash]
    exact List.splitOn_append_cons_self dir name
  have hdown : component name = .down name := by
    have hdot : ∀ other : Bytes, 46 ∈ other → name ≠ other := fun other hmem heq =>
      absurd (hdigits 46 (heq ▸ hmem)) (by decide)
    rw [component, if_neg (not_or.mpr ⟨hne, hdot (ascii ".") (by decide)⟩), if_neg (hdot (ascii "..") (by decide))]
  rw [components, hsplit, List.map_append, List.map_singleton, hdown]
  rfl

/-- The words of a line of the shell that `system` runs. What is special in some places only, such as a tilde, counts
as special, and so does the NUL that ends the command. -/
def posixSh : Lexicon UInt8 where
  blank c := c = 32 || c = 9
  special c := c ∈ [0, 10] ++ ascii "|&;<>()$\x60\\\"*?[]#~=%!^\x7b\x7d"
  quote := 39

/-- `"cp -f " + source + " " + target` -/
def cpCommand (source target : Bytes) : Bytes := ascii "cp -f " ++ source ++ ascii " " ++ target

/-- Whether the two names are quoted in the command or not, the shell has `cp` copy the one to the other. -/
def CopiedAsNamed (source target : Bytes) : Prop :=
  ∀ text text', posixSh.Spells source text → posixSh.Spells target text' →
    posixSh.words .gap (cpCommand text text') = some [ascii "cp", ascii "-f", source, target]

theorem copiedAsNamed {source target : Bytes} (hsource : posixSh.Bare source) (htarget : posixSh.Bare target) :
    CopiedAsNamed source target := by
  intro text text' htext htext'
  have hcp : posixSh.Bare (ascii "cp") := ⟨by decide, by decide +kernel⟩
  have hf : posixSh.Bare (ascii "-f") := ⟨by decide, by decide +kernel⟩
  have hbare : ∀ word ∈ [ascii "cp", ascii "-f", source, target], posixSh.Bare word := by
    simp [hcp, hf, hsource, htarget]
  have hline : cpCommand text text' = List.intercalate [32] [ascii "cp", ascii "-f", text, text'] := by
    simp only [List.intercalate_cons_cons, List.intercalate_singleton, List.append_assoc]
    rw [cpCommand, List.append_assoc, List.append_assoc]
    rfl
  rw [hline]
  exact Lexicon.words_intercalate rfl rfl hbare (.cons .bare (.cons .bare (.cons htext (.cons htext' .nil))))

theorem bare_append_name {dir name : Bytes} (hdir : ∀ c ∈ dir, posixSh.Plain c) (hdigits : ∀ c ∈ name, c ∈ hexDigits) :
    posixSh.Bare (dir ++ ascii "/" ++ name) where
  nonempty := by simp [ascii]
  plain c hc := by
    have hplain : ∀ c ∈ ascii "/" ++ hexDigits, posixSh.Plain c := by decide +kernel
    rw [List.append_assoc] at hc
    rcases List.mem_append.mp hc with hc | hc
    · exact hdir c hc
    · rcases List.mem_append.mp hc with hc | hc
      · exact hplain c (List.mem_append_left _ hc)
      · exact hplain c (List.mem_append_right _ (hdigits c hc))

section Names

variable [Sha256]

/-- What `getHashedPath` returns is what its loop prints. -/
theorem getHashedPath_eq_render (p : CString) : getHashedPath p = renderDigest (Sha256.digest p.bytes) :=
  (renderDigest_eq _).symm

theorem getHashedPath_digits (p : CString) : ∀ c ∈ getHashedPath p, c ∈ hexDigits := by
  rw [getHashedPath_eq_render]
  exact renderDigest_digits _

theorem getHashedPath_ne_nil (p : CString) : getHashedPath p ≠ [] := by
  have hlength := length_renderDigest (Sha256.digest p.bytes)
  rw [getHashedPath_eq_render]
  intro h
  rw [h] at hlength
  cases hlength

/-- The name is one component of either path, and the commands need no quotes. -/
structure PlainName (p : CString) : Prop where
  temp : components (getTempPath p) = components tempDir ++ [.down (getHashedPath p)]
  cache : components (getCachePath p) = components cacheDir ++ [.down (getHashedPath p)]
  getCheckInTemp : CopiedAsNamed (getCachePath p) (getTempPath p)
  commitToCache : CopiedAsNamed (getTempPath p) (getCachePath p)

theorem plainName (p : CString) : PlainName p := by
  have hne := getHashedPath_ne_nil p
  have hdigits := getHashedPath_digits p
  have htemp : posixSh.Bare (getTempPath p) := bare_append_name (by decide +kernel) hdigits
  have hcache : posixSh.Bare (getCachePath p) := bare_append_name (by decide +kernel) hdigits
  exact {
    temp := components_append_name tempDir hne hdigits
    cache := components_append_name cacheDir hne hdigits
    getCheckInTemp := copiedAsNamed hcache htemp
    commitToCache := copiedAsNamed htemp hcache }

theorem NoCollision.cache {paths : Set CString} (h : NoCollision paths) {p q : CString}
    (hp : p ∈ paths) (hq : q ∈ paths) (heq : getCachePath p = getCachePath q) : p = q :=
  h.hashed hp hq (List.append_cancel_left heq)

/-- The local names of the paths in use do not collide, and the name of a path is 64 hexadecimal digits of its digest. -/
theorem local_names_distinct {paths : Set CString} (hcollision : NoCollision paths) :
    (∀ p ∈ paths, ∀ q ∈ paths, p ≠ q → getTempPath p ≠ getTempPath q ∧ getCachePath p ≠ getCachePath q) ∧
      (∀ p q, getTempPath p ≠ getCachePath q) ∧
      Function.Injective renderDigest ∧
      (∀ hash, (renderDigest hash).length = 64 ∧ ∀ c ∈ renderDigest hash, c ∈ hexDigits) ∧
      ∀ p, getHashedPath p = renderDigest (Sha256.digest p.bytes) ∧ PlainName p := by
  refine ⟨fun p hp q hq hne => ⟨fun heq => ?_, fun heq => ?_⟩, getTempPath_ne_getCachePath, renderDigest_injective,
    fun hash => ⟨length_renderDigest hash, renderDigest_digits hash⟩,
    fun p => ⟨getHashedPath_eq_render p, plainName p⟩⟩
  · exact hne (hcollision.temp hp hq heq)
  · exact hne (hcollision.cache hp hq heq)

end Names

/-- The two paths of the samples have different names. -/
theorem local_names_distinct_sample :
    letI := sampleSha256
    getTempPath sampleF ≠ getTempPath sampleG ∧ getCachePath sampleF ≠ getCachePath sampleG := by
  let _ := sampleSha256
  have hcollision : NoCollision {sampleF, sampleG} := by
    refine Set.injOn_pair.mpr fun heq => ?_
    exact absurd (congrFun heq 0) (by decide)
  exact (local_names_distinct hcollision).1 sampleF (Or.inl rfl) sampleG (Or.inr rfl) (by decide)

end Bnfs
