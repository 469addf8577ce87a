/-
# SDNware.Wire.Amount — the `Amount` record shared by the driver, the client and the server.

`common.hpp` and `qp.c` declare the same C struct: three `char` arrays and three `uint64_t` counters,
136 bytes with no padding (16 + 64 + 32 + 3·8, every counter on an 8-byte boundary).  The driver
fills the records in shared memory, the client sends them to the server as raw memory, and the
server casts the bytes it has read back to `Amount *`.  This module fixes

* the record (`Amount`), its arrays being byte vectors of their declared length;
* the two string primitives the code applies to the arrays: `strncpy` into a field, and the implicit
  conversion of a field to `std::string` (`cStr`).  A field is read up to its first NUL or to its
  declared end;
* the memory image (`toBytes`) and the cast back (`ofBytes`), with `ofBytes ∘ toBytes = id`.
-/
import Mathlib.Data.Vector.Basic
import Mathlib.Data.Nat.Digits.Defs
import Mathlib.Data.List.TakeWhile
import SDNware.Lib.Frames

namespace SDNware.Wire

/-- A C `char[n]`. -/
abbrev CharArray (n : Nat) := List.Vector UInt8 n

/-- The bytes of a string; `std::string` and C strings hold one `char` (here `0..255`) a position. -/
def charBytes (s : String) : List UInt8 := s.toList.map fun c => UInt8.ofNat c.toNat

/-- `l` cut or zero-padded to exactly `n` bytes. -/
def CharArray.fit (n : Nat) (l : List UInt8) : CharArray n :=
  ⟨(l ++ List.replicate n 0).take n, by simp⟩

/-- `strncpy(dst, s, n)` into a `char[n]`: the string up to its NUL, cut to `n`, zero-padded. -/
def strncpy (n : Nat) (s : String) : CharArray n :=
  CharArray.fit n ((charBytes s).takeWhile (· ≠ 0))

/-- The `std::string` a `char[n]` field converts to. -/
def cStr {n : Nat} (a : CharArray n) : String :=
  String.ofList ((a.toList.takeWhile (· ≠ 0)).map fun b => Char.ofNat b.toNat)

theorem CharArray.fit_toList {n : Nat} (a : CharArray n) (rest : List UInt8) :
    CharArray.fit n (a.toList ++ rest) = a := by
  apply List.Vector.toList_injective
  have h : n = a.toList.length := a.toList_length.symm
  show ((a.toList ++ rest) ++ List.replicate n 0).take n = a.toList
  rw [List.append_assoc, List.take_append_of_le_length h.le, List.take_of_length_le h.ge]

theorem charBytes_cStr {n : Nat} (a : CharArray n) :
    charBytes (cStr a) = a.toList.takeWhile (· ≠ 0) := by
  unfold charBytes cStr
  rw [String.toList_ofList, List.map_map]
  conv_rhs => rw [← List.map_id (a.toList.takeWhile (· ≠ 0))]
  refine List.map_congr_left fun b _ => ?_
  have hb : b.toNat.isValidChar := Or.inl (by have := b.toNat_lt; omega)
  have hchar : (Char.ofNat b.toNat).toNat = b.toNat := by
    unfold Char.ofNat
    rw [dif_pos hb]
    rfl
  show UInt8.ofNat (Char.ofNat b.toNat).toNat = b
  rw [hchar, UInt8.ofNat_toNat]

/-- What a `strncpy` leaves to be read: the string up to its NUL, cut to the field. -/
theorem takeWhile_strncpy (n : Nat) (s : String) :
    ((strncpy n s).toList).takeWhile (· ≠ 0) = ((charBytes s).takeWhile (· ≠ 0)).take n := by
  show (((charBytes s).takeWhile (· ≠ 0) ++ List.replicate n 0).take n).takeWhile (· ≠ 0) = _
  rw [List.take_append, List.take_replicate, List.takeWhile_append_of_pos]
  · rw [List.takeWhile_replicate]
    simp
  · intro b hb
    have hb' := List.mem_of_mem_take hb
    exact List.mem_takeWhile_imp (p := fun x => decide (x ≠ 0)) hb'

/-- Copying a field into a field of the same size: the second copy changes nothing. -/
theorem strncpy_cStr_strncpy (n : Nat) (s : String) :
    strncpy n (cStr (strncpy n s)) = strncpy n s := by
  apply List.Vector.toList_injective
  show ((charBytes (cStr (strncpy n s))).takeWhile (· ≠ 0) ++ List.replicate n 0).take n
    = ((charBytes s).takeWhile (· ≠ 0) ++ List.replicate n 0).take n
  rw [charBytes_cStr, List.takeWhile_idem, takeWhile_strncpy, List.take_append, List.take_append,
    List.take_take, Nat.min_self, List.length_take]
  congr 2
  omega

/-- The traffic record. -/
structure Amount where
  gid : CharArray 16
  name : CharArray 64
  ip : CharArray 32
  tx : UInt64
  rx : UInt64
  tm : UInt64
  deriving DecidableEq

/-- `sizeof(Amount)`. -/
def sizeofAmount : Nat := 136

/-- `flow_NUM`, the number of records of the shared ring and of the server's receive buffer. -/
def flowNum : Nat := 10000

/-! ## Little-endian counters -/

/-- The lowest `k` base-256 digits of `n`, least significant first. -/
def leDigits : Nat → Nat → List UInt8
  | 0, _ => []
  | k + 1, n => UInt8.ofNat n :: leDigits k (n / 256)

/-- A `uint64_t` in memory. -/
def le64 (x : UInt64) : List UInt8 := leDigits 8 x.toNat

/-- The `uint64_t` stored in a byte list. -/
def ofLe64 (l : List UInt8) : UInt64 := UInt64.ofNat (Nat.ofDigits 256 (l.map UInt8.toNat))

@[simp] theorem leDigits_length (k n : Nat) : (leDigits k n).length = k := by
  induction k generalizing n with
  | zero => rfl
  | succ k ih => simp only [leDigits, List.length_cons, ih]

@[simp] theorem le64_length (x : UInt64) : (le64 x).length = 8 := leDigits_length 8 _

theorem ofDigits_leDigits (k n : Nat) :
    Nat.ofDigits 256 ((leDigits k n).map UInt8.toNat) = n % 256 ^ k := by
  induction k generalizing n with
  | zero => simp [leDigits, Nat.mod_one]
  | succ k ih =>
    have hbyte : (UInt8.ofNat n).toNat = n % 256 := UInt8.toNat_ofNat'
    simp only [leDigits, List.map_cons, Nat.ofDigits_cons, ih, hbyte]
    rw [Nat.pow_succ']
    exact Nat.mod_mul.symm

theorem ofLe64_le64 (x : UInt64) : ofLe64 (le64 x) = x := by
  have hx : x.toNat < 256 ^ 8 := x.toNat_lt
  unfold ofLe64 le64
  rw [ofDigits_leDigits, Nat.mod_eq_of_lt hx, UInt64.ofNat_toNat]

/-! ## The memory image -/

/-- The 136 bytes of a record. -/
def Amount.toBytes (a : Amount) : List UInt8 :=
  a.gid.toList ++ (a.name.toList ++ (a.ip.toList ++ (le64 a.tx ++ (le64 a.rx ++ le64 a.tm))))

/-- The record at the start of a buffer (`(Amount *)buf`): every field is read at its offset. -/
def Amount.ofBytes (l : List UInt8) : Amount where
  gid := CharArray.fit 16 l
  name := CharArray.fit 64 (l.drop 16)
  ip := CharArray.fit 32 (l.drop 80)
  tx := ofLe64 ((l.drop 112).take 8)
  rx := ofLe64 ((l.drop 120).take 8)
  tm := ofLe64 ((l.drop 128).take 8)

theorem Amount.toBytes_length (a : Amount) : a.toBytes.length = sizeofAmount := by
  simp [Amount.toBytes, sizeofAmount]

/-- **The cast reads back what was stored.** -/
theorem Amount.ofBytes_toBytes (a : Amount) : Amount.ofBytes a.toBytes = a := by
  have h16 : a.toBytes.drop 16
      = a.name.toList ++ (a.ip.toList ++ (le64 a.tx ++ (le64 a.rx ++ le64 a.tm))) :=
    List.drop_left' (by simp)
  have h80 : a.toBytes.drop 80 = a.ip.toList ++ (le64 a.tx ++ (le64 a.rx ++ le64 a.tm)) := by
    rw [show 80 = 16 + 64 from rfl, ← List.drop_drop, h16, List.drop_left' (by simp)]
  have h112 : a.toBytes.drop 112 = le64 a.tx ++ (le64 a.rx ++ le64 a.tm) := by
    rw [show 112 = 80 + 32 from rfl, ← List.drop_drop, h80, List.drop_left' (by simp)]
  have h120 : a.toBytes.drop 120 = le64 a.rx ++ le64 a.tm := by
    rw [show 120 = 112 + 8 from rfl, ← List.drop_drop, h112, List.drop_left' (by simp)]
  have h128 : a.toBytes.drop 128 = le64 a.tm := by
    rw [show 128 = 120 + 8 from rfl, ← List.drop_drop, h120, List.drop_left' (by simp)]
  have htake : ∀ x : UInt64, ∀ rest, (le64 x ++ rest).take 8 = le64 x := fun x rest =>
    List.take_left' (le64_length x)
  have hgid : CharArray.fit 16 a.toBytes = a.gid := CharArray.fit_toList a.gid _
  have htm : (le64 a.tm).take 8 = le64 a.tm := List.take_of_length_le (le64_length _).le
  simp only [Amount.ofBytes, h16, h80, h112, h120, h128, CharArray.fit_toList, htake, htm,
    ofLe64_le64, hgid]

/-- What a batch of records looks like on the wire: the records back to back. -/
def wire (rs : List Amount) : List UInt8 := rs.flatMap Amount.toBytes

theorem wire_length (rs : List Amount) : (wire rs).length = sizeofAmount * rs.length :=
  Frames.flatMap_enc_length Amount.toBytes Amount.toBytes_length rs

end SDNware.Wire
