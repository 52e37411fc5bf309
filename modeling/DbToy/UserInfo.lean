import DbToy.LeafNode
import DbToy.Lib.Istream

/-!
# Rows of the shell

`UserInfo` is the row that the shell stores: a 32 bit `int` and two arrays of 32 characters that
hold strings, with whatever was in memory behind their ends.  `from_string` reads one from a line,
`serialize` and `deserialize` store it, and `to_string` prints it.

* `deserialize_serialize`: what is stored is loaded again, the bytes behind the strings included.
* `fromString_of_fit`: a line whose strings fit their columns gives the row with its fields.
-/

namespace DbToy

open Bytes Istream

def colUsernameSize : ℕ := 32

def colEmailSize : ℕ := 32

/-- `char[n]`. -/
structure CharArray (n : ℕ) where
  bytes : List UInt8
  length_bytes : bytes.length = n

namespace CharArray

variable {n : ℕ}

@[ext] lemma ext {a b : CharArray n} (h : a.bytes = b.bytes) : a = b := by
  cases a; cases b; cases h; rfl

/-- The part of a string in front of the first NUL. -/
def cString (str : List UInt8) : List UInt8 := str.takeWhile fun b => b != 0

/-- `a[0] = '\\0'`. -/
def clear (a : CharArray n) : CharArray n :=
  ⟨a.bytes.set 0 0, by rw [List.length_set, a.length_bytes]⟩

/-- `strcpy(a, str.c_str())`. -/
def strcpy (a : CharArray n) (str : List UInt8) : Except Fault (CharArray n) :=
  if h : 0 + (cString str ++ [0]).length ≤ n then
    .ok ⟨patch 0 a.bytes 0 (cString str ++ [0]), by
      rw [length_patch_of_le (by rw [a.length_bytes]; exact h), a.length_bytes]⟩
  else .error .outsideArray

/-- `std::string(a)`. -/
def toString (a : CharArray n) : Except Fault (List UInt8) :=
  if 0 ∈ a.bytes then .ok (cString a.bytes) else .error .outsideArray

/-- The array that is stored in the `n` bytes from `off` on. -/
def load (n : ℕ) (source : List UInt8) (off : ℕ) : Except Fault (CharArray n) :=
  if h : (slice source off n).length = n then .ok ⟨slice source off n, h⟩
  else .error .outsideArray

end CharArray

/-- What happens to be in memory that `from_string` or the constructor leaves as it is: the variable
that the number is read into, and the two arrays. -/
structure Uninit where
  field1 : Int32
  username : CharArray colUsernameSize
  email : CharArray colEmailSize

structure UserInfo where
  id : Int32
  username : CharArray colUsernameSize
  email : CharArray colEmailSize

namespace UserInfo

/-- `UserInfo()`. -/
def new (mem : Uninit) : UserInfo := ⟨0, mem.username.clear, mem.email.clear⟩

/-- `get_row_byte()`. -/
def getRowByte : ℕ := 4 + colUsernameSize + colEmailSize

/-- `get_primary_key()`: the number, taken as unsigned. -/
def getPrimaryKey (u : UserInfo) : UInt32 := u.id.toUInt32

def serialize (u : UserInfo) : Row :=
  encodeLE 4 u.id.toUInt32.toNat ++ u.username.bytes ++ u.email.bytes

def deserialize (source : Row) : Except Fault UserInfo := do
  let id ← CharArray.load 4 source 0
  let username ← CharArray.load colUsernameSize source 4
  let email ← CharArray.load colEmailSize source (4 + colUsernameSize)
  .ok ⟨.ofUInt32 (UInt32.ofNat (decodeLE id.bytes)), username, email⟩

/-- `to_string()`. -/
def toString (u : UserInfo) : Except Fault (List UInt8) := do
  let username ← u.username.toString
  let email ← u.email.toString
  .ok (decimal u.id.toInt ++ bytesOf "," ++ username ++ bytesOf "," ++ email)

/-- `oin >> field1 >> field2 >> field3` on a stream over the string: the fields, and the stream
afterwards. -/
def readFields (mem : Uninit) (str : List UInt8) : (ℤ × List UInt8 × List UInt8) × Stream :=
  let (field1, oin) := readInt (Istream.ofString str) mem.field1.toInt
  let (field2, oin) := readString oin []
  let (field3, oin) := readString oin []
  ((field1, field2, field3), oin)

/-- `from_string(str)`. -/
def fromString (u : UserInfo) (mem : Uninit) (str : List UInt8) : Except Fault UserInfo := do
  let (field1, field2, field3) := (readFields mem str).1
  assertThat (field2.length < colUsernameSize) "field2.size() < COL_USERNAME_SIZE"
  assertThat (field3.length < colEmailSize) "field3.size() < COL_EMAIL_SIZE"
  let username ← u.username.strcpy field2
  let email ← u.email.strcpy field3
  .ok ⟨Int32.ofInt field1, username, email⟩

end UserInfo

/-! ## Strings in arrays -/

namespace CharArray

variable {n : ℕ}

lemma cString_append_zero (str rest : List UInt8) :
    cString (cString str ++ 0 :: rest) = cString str := by
  have hall : ∀ b ∈ cString str, (b != 0) = true := fun b hb =>
    List.mem_takeWhile_imp (p := fun b => b != 0) hb
  exact takeWhile_of_stops hall fun b hb => by cases hb; rfl

/-- Nothing is cut off a string without a NUL. -/
lemma cString_eq_self {str : List UInt8} : cString str = str ↔ 0 ∉ str := by
  rw [cString, List.takeWhile_eq_self_iff]
  constructor
  · intro h hmem
    exact absurd (h 0 hmem) (by decide)
  · intro h b hb
    exact bne_iff_ne.mpr fun heq => h (heq ▸ hb)

lemma length_cString_le (str : List UInt8) : (cString str).length ≤ str.length :=
  (List.takeWhile_prefix _).length_le

/-- What is behind the NUL stays as it was. -/
lemma strcpy_eq (a : CharArray n) {str : List UInt8} (h : str.length < n) :
    ∃ b, a.strcpy str = .ok b ∧
      b.bytes = cString str ++ 0 :: a.bytes.drop ((cString str).length + 1) := by
  have hlen := length_cString_le str
  have hfit : 0 + (cString str ++ [0]).length ≤ n := by
    rw [List.length_append, List.length_singleton]
    omega
  rw [strcpy, dif_pos hfit]
  refine ⟨_, rfl, ?_⟩
  show patch 0 a.bytes 0 (cString str ++ [0]) = _
  rw [patch, List.take_zero, Nat.zero_sub, Nat.zero_add, List.replicate_zero, List.nil_append,
    List.nil_append, List.append_assoc, List.singleton_append, List.length_append,
    List.length_singleton]

/-- **A string that is copied is read back**, up to its first NUL. -/
theorem strcpy_spec (a : CharArray n) {str : List UInt8} (h : str.length < n) :
    ∃ b, a.strcpy str = .ok b ∧ b.toString = .ok (cString str) := by
  obtain ⟨b, hb, hbytes⟩ := a.strcpy_eq h
  refine ⟨b, hb, ?_⟩
  rw [toString, hbytes, cString_append_zero, if_pos (List.mem_append_right _ List.mem_cons_self)]

end CharArray

namespace UserInfo

/-! ## Storage -/

lemma length_serialize (u : UserInfo) : u.serialize.length = getRowByte := by
  rw [serialize, List.length_append, List.length_append, length_encodeLE, u.username.length_bytes,
    u.email.length_bytes, getRowByte]

/-- **A stored row is loaded as it was.** -/
theorem deserialize_serialize (u : UserInfo) : deserialize u.serialize = .ok u := by
  have hu := u.username.length_bytes
  have he := u.email.length_bytes
  have hn := length_encodeLE 4 u.id.toUInt32.toNat
  have hid : slice u.serialize 0 4 = encodeLE 4 u.id.toUInt32.toNat := by
    rw [slice, List.drop_zero, serialize, List.append_assoc]
    exact List.take_left' hn
  have husername : slice u.serialize 4 colUsernameSize = u.username.bytes := by
    rw [slice, serialize, List.append_assoc, List.drop_left' hn]
    exact List.take_left' hu
  have hemail : slice u.serialize (4 + colUsernameSize) colEmailSize = u.email.bytes := by
    rw [slice, serialize, List.drop_left' (by rw [List.length_append, hn, hu])]
    exact List.take_of_length_le (le_of_eq he)
  have hdecode : UInt32.ofNat (decodeLE (encodeLE 4 u.id.toUInt32.toNat)) = u.id.toUInt32 := by
    rw [decodeLE_encodeLE_of_lt u.id.toUInt32.toNat_lt, UInt32.ofNat_toNat]
  simp only [deserialize, CharArray.load, hid, husername, hemail, hn, hu, he, dif_pos, ok_bind,
    hdecode]

/-! ## Input -/

/-- Both strings end inside their arrays, and these are the strings. -/
structure HasFields (u : UserInfo) (id : ℤ) (username email : List UInt8) : Prop where
  id : u.id = Int32.ofInt id
  username : u.username.toString = .ok (CharArray.cString username)
  email : u.email.toString = .ok (CharArray.cString email)

lemma HasFields.getPrimaryKey {u : UserInfo} {id : ℤ} {username email : List UInt8}
    (h : u.HasFields id username email) : u.getPrimaryKey = (Int32.ofInt id).toUInt32 := by
  rw [UserInfo.getPrimaryKey, h.id]

/-- Both strings are shorter than their columns. -/
def FitColumns (username email : List UInt8) : Prop :=
  username.length < colUsernameSize ∧ email.length < colEmailSize

instance (username email : List UInt8) : Decidable (FitColumns username email) :=
  inferInstanceAs (Decidable (_ ∧ _))

lemma fromString_of_fit (u : UserInfo) {mem : Uninit} {str username email : List UInt8} {id : ℤ}
    (hread : (readFields mem str).1 = (id, username, email)) (hfit : FitColumns username email) :
    ∃ u', u.fromString mem str = .ok u' ∧ u'.HasFields id username email := by
  obtain ⟨a, ha, hausername⟩ := u.username.strcpy_spec hfit.1
  obtain ⟨b, hb, hbemail⟩ := u.email.strcpy_spec hfit.2
  refine ⟨⟨Int32.ofInt id, a, b⟩, ?_, rfl, hausername, hbemail⟩
  simp only [fromString, hread, assertThat_of hfit.1, assertThat_of hfit.2, ha, hb, ok_bind]

/-- A string that does not fit its column aborts the process. -/
lemma fromString_of_not_fit (u : UserInfo) {mem : Uninit} {str username email : List UInt8} {id : ℤ}
    (hread : (readFields mem str).1 = (id, username, email)) (hfit : ¬FitColumns username email) :
    ∃ cond, u.fromString mem str = .error (.assertFailed cond) := by
  by_cases hu : username.length < colUsernameSize
  · have he : ¬email.length < colEmailSize := fun he => hfit ⟨hu, he⟩
    refine ⟨"field3.size() < COL_EMAIL_SIZE", ?_⟩
    simp only [fromString, hread, assertThat_of hu, assertThat_of_not he, ok_bind, error_bind]
  · refine ⟨"field2.size() < COL_USERNAME_SIZE", ?_⟩
    simp only [fromString, hread, assertThat_of_not hu, error_bind]

lemma HasFields.toString {u : UserInfo} {id : ℤ} {username email : List UInt8}
    (h : u.HasFields id username email) :
    u.toString = .ok (decimal (Int32.ofInt id).toInt ++ bytesOf "," ++ CharArray.cString username
      ++ bytesOf "," ++ CharArray.cString email) := by
  rw [UserInfo.toString, h.username, ok_bind, h.email, ok_bind, h.id]

end UserInfo

end DbToy
