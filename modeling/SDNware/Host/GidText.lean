/-
# SDNware.Host.GidText — the destination that `flow_forecast` takes from a GID.

The driver has the GID of the far end formatted by `inet_ntop` into `char dgid[30]` and copies what
follows the last colon into `char gid[16]`.  For the IPv4-mapped GIDs of RoCE that is the dotted quad
under which the server lists the far end.

The text of an address always has a colon, and what follows the last one is empty, a group of up to
four hexadecimal digits or a dotted quad (`inetNtop6_split`), so it always fits `gid`.  But the text
itself may take 39 characters.  One that does not fit `dgid` with its NUL is not written at all,
`strrchr` finds no colon, and the copy reads from address 1.  The extraction is right if and only if
the text fits (`extracted_iff`), as it does for all IPv4-mapped addresses (`mapped_fits`).
-/
import Mathlib.Data.List.GetD
import Mathlib.Data.Nat.Digits.Defs
import SDNware.Host.Forecast

namespace SDNware.Host

open SDNware.Wire

/-! ## §1 — plain characters -/

/-- A character other than the colon and NUL that one byte holds. -/
def Plain (c : Char) : Prop := c ≠ ':' ∧ c.toNat ≠ 0 ∧ c.toNat < 256

instance (c : Char) : Decidable (Plain c) :=
  inferInstanceAs (Decidable (c ≠ ':' ∧ c.toNat ≠ 0 ∧ c.toNat < 256))

theorem plain_digitChar : ∀ d < 16, Plain (Nat.digitChar d) := by decide

/-- Digits are plain. -/
theorem plain_of_mem_toDigits {b n : Nat} {c : Char} (hb : 1 < b) (hb' : b ≤ 16)
    (h : c ∈ Nat.toDigits b n) : Plain c := by
  induction n using Nat.strongRecOn with
  | ind n ih =>
    rw [Nat.toDigits_eq_if hb] at h
    split at h
    · rename_i hlt
      rw [List.mem_singleton.mp h]
      exact plain_digitChar n (hlt.trans_le hb')
    · rename_i hge
      rcases List.mem_append.mp h with hfront | hlast
      · apply ih (n / b) _ hfront
        exact Nat.div_lt_self (by omega) hb
      · rw [List.mem_singleton.mp hlast]
        exact plain_digitChar (n % b) ((Nat.mod_lt n (by omega)).trans_le hb')

/-- A plain text that leaves room for its NUL is read back from the field it was copied into. -/
theorem cStr_strncpy {n : Nat} {text : List Char} (hplain : ∀ c ∈ text, Plain c)
    (hlen : text.length + 1 ≤ n) : cStr (strncpy n (String.ofList text)) = String.ofList text := by
  have hbytes : charBytes (String.ofList text) = text.map fun c => UInt8.ofNat c.toNat := by
    unfold charBytes
    rw [String.toList_ofList]
  have hbyte : ∀ c ∈ text, (UInt8.ofNat c.toNat).toNat = c.toNat := by
    intro c hc
    exact UInt8.toNat_ofNat_of_lt' (hplain c hc).2.2
  have hnonzero : ∀ b ∈ text.map (fun c => UInt8.ofNat c.toNat), decide (b ≠ 0) = true := by
    intro b hb
    obtain ⟨c, hc, rfl⟩ := List.mem_map.mp hb
    apply decide_eq_true
    intro hzero
    apply (hplain c hc).2.1
    rw [← hbyte c hc, hzero]
    rfl
  unfold cStr
  rw [takeWhile_strncpy, hbytes, List.takeWhile_eq_self_iff.mpr hnonzero,
    List.take_of_length_le (by rw [List.length_map]; omega), List.map_map]
  congr 1
  calc text.map _ = text.map id := by
        apply List.map_congr_left
        intro c hc
        show Char.ofNat (UInt8.ofNat c.toNat).toNat = c
        rw [hbyte c hc, Char.ofNat_toNat]
    _ = text := List.map_id text

/-! ## §2 — runs of zero words -/

/-- The runs known after `s` words: the best ends there or before, the current one there. -/
structure Scanned (s : Nat) (st : Option (Nat × Nat) × Option (Nat × Nat)) : Prop where
  best : ∀ r ∈ st.1, r.1 + r.2 ≤ s
  cur : ∀ r ∈ st.2, r.1 + r.2 = s

theorem betterRun_le {best : Option (Nat × Nat)} {cur : Nat × Nat} {s : Nat}
    (hbest : ∀ r ∈ best, r.1 + r.2 ≤ s) (hcur : cur.1 + cur.2 ≤ s) :
    ∀ r ∈ betterRun best cur, r.1 + r.2 ≤ s := by
  intro r hr
  unfold betterRun at hr
  cases best with
  | none =>
    obtain rfl := Option.some.inj hr
    exact hcur
  | some b =>
    simp only at hr
    split at hr
    · obtain rfl := Option.some.inj hr
      exact hcur
    · obtain rfl := Option.some.inj hr
      exact hbest b rfl

theorem Scanned.step {s w : Nat} {st : Option (Nat × Nat) × Option (Nat × Nat)} (h : Scanned s st) :
    Scanned (s + 1) (scanWord st (s, w)) := by
  obtain ⟨best, cur⟩ := st
  have hbest : ∀ r ∈ best, r.1 + r.2 ≤ s + 1 := fun r hr => (h.best r hr).trans (Nat.le_succ s)
  unfold scanWord
  cases cur with
  | none =>
    simp only
    split
    · exact ⟨hbest, fun r hr => by obtain rfl := Option.some.inj hr; rfl⟩
    · exact ⟨hbest, fun r hr => absurd hr (by simp)⟩
  | some c =>
    have hc : c.1 + c.2 = s := h.cur c rfl
    simp only
    split
    · refine ⟨hbest, fun r hr => ?_⟩
      obtain rfl := Option.some.inj hr
      show c.1 + (c.2 + 1) = s + 1
      omega
    · exact ⟨betterRun_le hbest (by omega), fun r hr => absurd hr (by simp)⟩

theorem Scanned.run {s : Nat} {st : Option (Nat × Nat) × Option (Nat × Nat)} (h : Scanned s st)
    (ws : List Nat) :
    Scanned (s + ws.length) (((List.range' s ws.length).zip ws).foldl scanWord st) := by
  induction ws generalizing s st with
  | nil => exact h
  | cons w ws ih =>
    rw [List.length_cons, List.range'_succ, List.zip_cons_cons, List.foldl_cons,
      show s + (ws.length + 1) = s + 1 + ws.length by omega]
    exact ih h.step

@[simp] theorem length_words (g : CharArray 16) : (words g).length = 8 := rfl

/-- The compressed run ends within the address. -/
theorem bestRun_le {g : CharArray 16} {r : Nat × Nat} (h : bestRun (words g) = some r) :
    r.1 + r.2 ≤ 8 := by
  have hscan : Scanned 8 (((List.range 8).zip (words g)).foldl scanWord (none, none)) := by
    have hstart : Scanned 0 ((none, none) : Option (Nat × Nat) × Option (Nat × Nat)) :=
      ⟨fun r hr => absurd hr (by simp), fun r hr => absurd hr (by simp)⟩
    have hrun := hstart.run (words g)
    rw [length_words, Nat.zero_add, ← List.range_eq_range'] at hrun
    exact hrun
  unfold bestRun at h
  simp only at h
  have hmem := (Option.filter_eq_some_iff.mp h).1
  cases hcur : (((List.range 8).zip (words g)).foldl scanWord (none, none)).2 with
  | none =>
    rw [hcur] at hmem
    exact hscan.best r hmem
  | some c =>
    rw [hcur] at hmem
    exact betterRun_le hscan.best (hscan.cur c hcur).le r hmem

/-! ## §3 — the text of an address -/

/-- The word `i` is within the compressed run. -/
def inRun (g : CharArray 16) (i : Nat) : Bool :=
  (bestRun (words g)).any fun r => r.1 ≤ i && i < r.1 + r.2

/-- The last 32 bits are written as a dotted quad. -/
def Encapsulated (g : CharArray 16) : Prop :=
  bestRun (words g) = some (0, 6) ∨ bestRun (words g) = some (0, 5) ∧ (words g).getD 5 0 = 0xffff

instance (g : CharArray 16) : Decidable (Encapsulated g) :=
  inferInstanceAs (Decidable (bestRun (words g) = some (0, 6) ∨
    bestRun (words g) = some (0, 5) ∧ (words g).getD 5 0 = 0xffff))

/-- What is written for the word `i`, or from it on. -/
def group (g : CharArray 16) (i : Nat) : List Char :=
  if i = 6 ∧ Encapsulated g then inetNtop4 g else Nat.toDigits 16 ((words g).getD i 0)

/-- One round of the loop of `inet_ntop`. -/
def piece (g : CharArray 16) (i : Nat) : List Char :=
  if inRun g i then (if (bestRun (words g)).any fun r => r.1 = i then [':'] else [])
  else (if i = 0 then [] else [':']) ++ group g i

/-- The word of the last round. -/
def lastWord (g : CharArray 16) : Nat := if Encapsulated g then 6 else 7

/-- The rounds of the loop, and the colon after a run at the end. -/
theorem inetNtop6_eq (g : CharArray 16) :
    inetNtop6 g = (List.range (lastWord g + 1)).flatMap (piece g) ++
      if (bestRun (words g)).any fun r => r.1 + r.2 = 8 then [':'] else [] := by
  have hrounds : lastWord g + 1 = if Encapsulated g then 7 else 8 := by
    unfold lastWord
    split <;> rfl
  rw [hrounds]
  rfl

theorem words_lt {g : CharArray 16} (i : Nat) : (words g).getD i 0 < 65536 := by
  have hall : ∀ w ∈ words g, w < 65536 := by
    intro w hw
    obtain ⟨k, -, rfl⟩ := List.mem_map.mp hw
    have hhi := (g.toList.getD (2 * k) 0).toNat_lt
    have hlo := (g.toList.getD (2 * k + 1) 0).toNat_lt
    omega
  rcases Nat.lt_or_ge i (words g).length with hlt | hge
  · rw [List.getD_eq_getElem _ _ hlt]
    exact hall _ (List.getElem_mem hlt)
  · rw [List.getD_eq_default _ _ hge]
    decide

/-- The text of the last four bytes. -/
theorem inetNtop4_eq {g : CharArray 16} {a b c d : UInt8} (h : g.toList.drop 12 = [a, b, c, d]) :
    inetNtop4 g = Nat.toDigits 10 a.toNat ++ '.' :: (Nat.toDigits 10 b.toNat ++
      '.' :: (Nat.toDigits 10 c.toNat ++ '.' :: Nat.toDigits 10 d.toNat)) := by
  unfold inetNtop4
  rw [h]
  simp [List.intercalate]

theorem exists_quad (g : CharArray 16) : ∃ a b c d, g.toList.drop 12 = [a, b, c, d] := by
  have hlen : (g.toList.drop 12).length = 4 := by
    rw [List.length_drop, g.toList_length]
  match g.toList.drop 12, hlen with
  | [a, b, c, d], _ => exact ⟨a, b, c, d, rfl⟩

theorem length_byte_le (b : UInt8) : (Nat.toDigits 10 b.toNat).length ≤ 3 := by
  apply Nat.toDigits_length 10 _ 3 (by decide)
  have := b.toNat_lt
  omega

/-- A group is plain and short. -/
theorem group_spec (g : CharArray 16) (i : Nat) :
    (∀ c ∈ group g i, Plain c) ∧ (group g i).length ≤ 15 := by
  unfold group
  split
  · obtain ⟨a, b, c, d, hquad⟩ := exists_quad g
    have hdigit : ∀ (b : UInt8) (x : Char), x ∈ Nat.toDigits 10 b.toNat → Plain x :=
      fun b x hx => plain_of_mem_toDigits (by decide) (by decide) hx
    have hdot : Plain '.' := by decide
    rw [inetNtop4_eq hquad]
    constructor
    · intro x hx
      simp only [List.mem_append, List.mem_cons] at hx
      rcases hx with hx | rfl | hx | rfl | hx | rfl | hx
      · exact hdigit a x hx
      · exact hdot
      · exact hdigit b x hx
      · exact hdot
      · exact hdigit c x hx
      · exact hdot
      · exact hdigit d x hx
    · have ha := length_byte_le a
      have hb := length_byte_le b
      have hc := length_byte_le c
      have hd := length_byte_le d
      simp only [List.length_append, List.length_cons]
      omega
  · constructor
    · exact fun c hc => plain_of_mem_toDigits (by decide) (by decide) hc
    · have hlen : (Nat.toDigits 16 ((words g).getD i 0)).length ≤ 4 :=
        Nat.toDigits_length 16 _ 4 (by decide) (words_lt i)
      omega

/-- Unless a run is compressed at the end of the address, the last word is written. -/
theorem not_inRun_lastWord {g : CharArray 16}
    (h : ((bestRun (words g)).any fun r => r.1 + r.2 = 8) = false) : inRun g (lastWord g) = false := by
  cases hrun : bestRun (words g) with
  | none => simp [inRun, hrun]
  | some r =>
    have hle := bestRun_le hrun
    have hend : r.1 + r.2 ≠ 8 := by simpa [hrun] using h
    have hout : r.1 + r.2 ≤ lastWord g := by
      unfold lastWord
      split
      · rename_i hquad
        unfold Encapsulated at hquad
        rw [hrun] at hquad
        rcases hquad with hsix | ⟨hfive, -⟩
        · obtain rfl := Option.some.inj hsix
          decide
        · obtain rfl := Option.some.inj hfive
          decide
      · omega
    have hnot : ¬ lastWord g < r.1 + r.2 := hout.not_gt
    simp [inRun, hrun, hnot]

/-- **The shape of the text.**  There is a last colon, and what follows it is plain and fits `gid`. -/
theorem inetNtop6_split (g : CharArray 16) :
    ∃ front last, inetNtop6 g = front ++ ':' :: last ∧ (∀ c ∈ last, Plain c) ∧ last.length ≤ 15 := by
  rw [inetNtop6_eq]
  cases htrail : (bestRun (words g)).any fun r => r.1 + r.2 = 8 with
  | true =>
    exact ⟨_, [], rfl, by simp, by simp⟩
  | false =>
    have hlast : piece g (lastWord g) = ':' :: group g (lastWord g) := by
      have hne : lastWord g ≠ 0 := by
        unfold lastWord
        split <;> decide
      unfold piece
      rw [not_inRun_lastWord htrail, if_neg hne]
      rfl
    refine ⟨(List.range (lastWord g)).flatMap (piece g), group g (lastWord g), ?_,
      (group_spec g _).1, (group_spec g _).2⟩
    rw [List.range_succ, List.flatMap_append, List.flatMap_singleton, hlast]
    exact List.append_nil _

/-! ## §4 — IPv4-mapped addresses -/

/-- The address `::ffff:a.b.c.d`. -/
def mappedAddress (a b c d : UInt8) : CharArray 16 :=
  CharArray.fit 16 [0, 0, 0, 0, 0, 0, 0, 0, 0, 0, 255, 255, a, b, c, d]

/-- The dotted quad of `server_list.txt`. -/
def dottedQuad (a b c d : UInt8) : String :=
  toString a.toNat ++ "." ++ toString b.toNat ++ "." ++ toString c.toNat ++ "." ++ toString d.toNat

/-- Whatever follows them, the five leading words are the longest run. -/
theorem bestRun_five (w6 w7 : Nat) : bestRun [0, 0, 0, 0, 0, 0xffff, w6, w7] = some (0, 5) := by
  by_cases h6 : w6 = 0 <;> by_cases h7 : w7 = 0 <;>
    simp [bestRun, List.range, List.range.loop, scanWord, betterRun, h6, h7]

section Mapped

variable (a b c d : UInt8)

theorem toList_mapped : (mappedAddress a b c d).toList
    = [0, 0, 0, 0, 0, 0, 0, 0, 0, 0, 255, 255, a, b, c, d] := rfl

theorem words_mapped : words (mappedAddress a b c d)
    = [0, 0, 0, 0, 0, 0xffff, a.toNat * 256 + b.toNat, c.toNat * 256 + d.toNat] := by
  simp [words, toList_mapped, List.range, List.range.loop]

theorem bestRun_mapped : bestRun (words (mappedAddress a b c d)) = some (0, 5) := by
  rw [words_mapped, bestRun_five]

theorem word5_mapped : (words (mappedAddress a b c d)).getD 5 0 = 0xffff := by
  rw [words_mapped]
  simp

theorem encapsulated_mapped : Encapsulated (mappedAddress a b c d) :=
  .inr ⟨bestRun_mapped a b c d, word5_mapped a b c d⟩

theorem group_mapped : group (mappedAddress a b c d) 6 = inetNtop4 (mappedAddress a b c d) :=
  if_pos ⟨rfl, encapsulated_mapped a b c d⟩

/-- The text of a mapped address. -/
theorem inetNtop6_mapped : inetNtop6 (mappedAddress a b c d)
    = [':', ':', 'f', 'f', 'f', 'f'] ++ ':' :: inetNtop4 (mappedAddress a b c d) := by
  have hlast : lastWord (mappedAddress a b c d) = 6 := if_pos (encapsulated_mapped a b c d)
  have hffff : Nat.toDigits 16 0xffff = ['f', 'f', 'f', 'f'] := by decide
  have hgroup5 : group (mappedAddress a b c d) 5 = ['f', 'f', 'f', 'f'] := by
    unfold group
    rw [if_neg (by simp), word5_mapped, hffff]
  rw [inetNtop6_eq, hlast]
  simp [List.range, List.range.loop, piece, inRun, bestRun_mapped, hgroup5, group_mapped]

theorem inetNtop4_mapped :
    String.ofList (inetNtop4 (mappedAddress a b c d)) = dottedQuad a b c d := by
  rw [inetNtop4_eq (a := a) (b := b) (c := c) (d := d) rfl]
  unfold dottedQuad
  apply String.toList_injective
  simp

/-- **A mapped address always fits.** -/
theorem mapped_fits : (inetNtop6 (mappedAddress a b c d)).length + 1 ≤ 30 := by
  have hquad := (group_spec (mappedAddress a b c d) 6).2
  rw [group_mapped] at hquad
  rw [inetNtop6_mapped, List.length_append, List.length_cons]
  simp only [List.length_cons, List.length_nil]
  omega

end Mapped

/-! ## §5 — the extraction -/

/-- What follows the last colon of a text. -/
def afterColon (text : List Char) : List Char := (text.reverse.takeWhile (· ≠ ':')).reverse

theorem afterColon_append (front : List Char) {last : List Char} (h : ∀ c ∈ last, Plain c) :
    afterColon (front ++ ':' :: last) = last := by
  have hplain : ∀ c ∈ last.reverse, decide (c ≠ ':') = true :=
    fun c hc => decide_eq_true (h c (List.mem_reverse.mp hc)).1
  unfold afterColon
  rw [List.reverse_append, List.reverse_cons, List.append_assoc,
    List.takeWhile_append_of_pos hplain, List.singleton_append,
    List.takeWhile_cons_of_neg (by simp), List.append_nil, List.reverse_reverse]

/-- What the extraction is to do: find a colon, copy what follows the last one with room for its NUL,
and give the dotted quad of a mapped address. -/
structure Extracted (g : CharArray 16) : Prop where
  colon : ':' ∈ dgidText g
  room : (afterColon (dgidText g)).length + 1 ≤ 16
  copied : ∃ gid, gidText g = some gid ∧ cStr gid = String.ofList (afterColon (dgidText g))
  mapped : ∀ a b c d, g = mappedAddress a b c d →
    ∃ gid, gidText g = some gid ∧ cStr gid = dottedQuad a b c d

/-- **The extraction of the destination.**  It is total and right for a GID if and only if the text of
the GID and its NUL fit the 30 bytes of `dgid`. -/
theorem extracted_iff (g : CharArray 16) : Extracted g ↔ (inetNtop6 g).length + 1 ≤ 30 := by
  constructor
  · intro h
    by_contra hlong
    have hcolon := h.colon
    unfold dgidText at hcolon
    rw [if_neg hlong] at hcolon
    exact List.not_mem_nil hcolon
  · intro hfits
    obtain ⟨front, last, htext, hplain, hlen⟩ := inetNtop6_split g
    have hdgid : dgidText g = front ++ ':' :: last := by
      unfold dgidText
      rw [if_pos hfits, htext]
    have hcolon : ':' ∈ dgidText g := by
      rw [hdgid]
      exact List.mem_append_right front List.mem_cons_self
    have hafter : afterColon (dgidText g) = last := by
      rw [hdgid, afterColon_append front hplain]
    have hgid : gidText g = some (strncpy 16 (String.ofList (afterColon (dgidText g)))) :=
      if_pos hcolon
    have hcopy : cStr (strncpy 16 (String.ofList last)) = String.ofList last :=
      cStr_strncpy hplain (by omega)
    refine ⟨hcolon, by rw [hafter]; omega, ⟨_, hgid, by rw [hafter, hcopy]⟩, ?_⟩
    rintro a b c d rfl
    have hquad : last = inetNtop4 (mappedAddress a b c d) := by
      have hplain4 := (group_spec (mappedAddress a b c d) 6).1
      rw [group_mapped] at hplain4
      rw [← afterColon_append front hplain, ← htext, inetNtop6_mapped, afterColon_append _ hplain4]
    exact ⟨_, hgid, by rw [hafter, hcopy, hquad, inetNtop4_mapped]⟩

/-- The address `2001:db8:1111:2222:3333:4444:5555:6666`. -/
def longGid : CharArray 16 :=
  CharArray.fit 16 [0x20, 0x01, 0x0d, 0xb8, 0x11, 0x11, 0x22, 0x22, 0x33, 0x33, 0x44, 0x44, 0x55, 0x55,
    0x66, 0x66]

/-- Its 38 characters do not fit, and the copy has no colon to start from. -/
theorem not_extracted_longGid :
    String.ofList (inetNtop6 longGid) = "2001:db8:1111:2222:3333:4444:5555:6666" ∧
      dgidText longGid = [] ∧ gidText longGid = none ∧ ¬ Extracted longGid := by
  have hempty : dgidText longGid = [] := by decide +kernel
  refine ⟨by decide +kernel, hempty, by decide +kernel, fun h => ?_⟩
  have hcolon := h.colon
  rw [hempty] at hcolon
  exact List.not_mem_nil hcolon

end SDNware.Host
