import Mononium.Core.Codec
import Mononium.Lib.HashMap
import Mathlib.Data.List.Sort

/-! The key-value storage: a map for each table. Where the database may fail, the failure is an
input of the caller. Blocks are stored under their height. -/
namespace Mononium

open Rust Scale

inductive Table where
  | accounts | blocks | blockHashes | txs | votes | validators | metadata
  deriving DecidableEq, Repr

structure Storage where
  table : Table → HashMap Bytes Bytes

namespace Storage

def empty : Storage := ⟨fun _ => ∅⟩

def put (self : Storage) (table : Table) (key value : Bytes) : Storage :=
  ⟨Function.update self.table table ((self.table table).insert key value)⟩

def get (self : Storage) (table : Table) (key : Bytes) : Option Bytes :=
  (self.table table).lookup key

def contains (self : Storage) (table : Table) (key : Bytes) : Bool := (self.get table key).isSome

/-- The database iterates in the order of the keys. -/
def listKeys (self : Storage) (table : Table) : List Bytes :=
  (self.table table).keys.insertionSort (· ≤ ·)

theorem get_put (self : Storage) (table other : Table) (key asked value : Bytes) :
    (self.put table key value).get other asked =
      if other = table ∧ asked = key then some value else self.get other asked := by
  simp only [get, put]
  by_cases same : other = table
  · subst same
    rw [Function.update_self, HashMap.lookup_insert_if]
    simp
  · rw [Function.update_of_ne same, if_neg fun both => same both.1]

theorem table_put_self (self : Storage) (table : Table) (key value : Bytes) :
    (self.put table key value).table table = (self.table table).insert key value :=
  Function.update_self _ _ _

theorem table_put_of_ne (self : Storage) {table other : Table} (key value : Bytes)
    (different : other ≠ table) : (self.put table key value).table other = self.table other :=
  Function.update_of_ne different _ _

end Storage

/-- Heights are keys in big-endian order. -/
def heightKey (height : U64) : Bytes := (leBytes 8 height.toNat).reverse

@[simp] theorem heightKey_length (height : U64) : (heightKey height).length = 8 := by simp [heightKey]

@[simp] theorem beValue_heightKey (height : U64) : beValue (heightKey height) = height.toNat := by
  rw [beValue, heightKey, List.reverse_reverse, leValue_leBytes 8 height.toNat height.isLt]

theorem heightKey_injective : Function.Injective heightKey := by
  intro a b same
  apply BitVec.eq_of_toNat_eq
  rw [← beValue_heightKey a, same, beValue_heightKey]

theorem leValue_concat (bytes : Bytes) (last : UInt8) :
    leValue (bytes ++ [last]) = leValue bytes + 256 ^ bytes.length * last.toNat := by
  induction bytes with
  | nil => simp [leValue]
  | cons byte rest ih =>
    simp only [List.cons_append, leValue, ih, List.length_cons, Nat.pow_succ]
    ring

theorem beValue_cons (byte : UInt8) (rest : Bytes) :
    beValue (byte :: rest) = beValue rest + 256 ^ rest.length * byte.toNat := by
  rw [beValue, List.reverse_cons, leValue_concat, List.length_reverse, beValue]

/-- Keys of one length are in the order of the numbers they spell. -/
theorem key_le_iff {a b : Bytes} (length : a.length = b.length) : a ≤ b ↔ beValue a ≤ beValue b := by
  induction a generalizing b with
  | nil =>
    rw [List.length_eq_zero_iff.mp length.symm]
    simp
  | cons x xs ih =>
    cases b with
    | nil => cases length
    | cons y ys =>
      have tails : xs.length = ys.length := Nat.succ.inj length
      have left : beValue xs < 256 ^ ys.length := by
        rw [← tails, ← List.length_reverse]
        exact leValue_lt _
      have right : beValue ys < 256 ^ ys.length := by
        rw [← List.length_reverse]
        exact leValue_lt _
      rw [List.cons_le_cons_iff, ih tails, beValue_cons, beValue_cons, tails, UInt8.lt_iff_toNat_lt,
        ← UInt8.toNat_inj]
      -- the first byte decides unless it is the same
      rcases Nat.lt_trichotomy x.toNat y.toNat with less | same | more
      · have := Nat.mul_le_mul_left (256 ^ ys.length) less
        rw [Nat.mul_succ] at this
        simp only [less, true_or, true_iff]
        omega
      · simp [same]
      · have := Nat.mul_le_mul_left (256 ^ ys.length) more
        rw [Nat.mul_succ] at this
        omega

theorem heightKey_le_iff (a b : U64) : heightKey a ≤ heightKey b ↔ a ≤ b := by
  rw [key_le_iff (by simp), beValue_heightKey, beValue_heightKey, BitVec.le_def]

instance : Max Bytes := maxOfLe

instance : Std.LawfulOrderMax Bytes := by
  apply Std.LawfulOrderMax.of_max_le_iff
  · intro a b c
    simp only [max]
    split
    next le => exact ⟨fun right => ⟨Std.le_trans le right, right⟩, And.right⟩
    next more => exact ⟨fun left => ⟨left, Std.le_trans (Std.le_of_not_ge more) left⟩, And.left⟩
  · intro a b
    simp only [max]
    split
    next => exact .inr rfl
    next => exact .inl rfl

def blockAt (storage : Storage) (height : U64) : Option Block :=
  (storage.get .blocks (heightKey height)).bind fun raw => (Codec.block.decode raw).map Prod.fst

theorem blockAt_eq_some {storage : Storage} {height : U64} {block : Block} :
    blockAt storage height = some block ↔
      ∃ raw rest, storage.get .blocks (heightKey height) = some raw ∧
        Codec.block.decode raw = some (block, rest) := by
  simp [blockAt, Option.bind_eq_some_iff]

theorem blockAt_put {storage : Storage} {height : U64} {block : Block}
    (fits : Codec.block.fits block = true) (asked : U64) :
    blockAt (storage.put .blocks (heightKey height) (Codec.block.encode block)) asked =
      if asked = height then some block else blockAt storage asked := by
  rw [blockAt, Storage.get_put]
  by_cases same : asked = height
  · simp [same, Codec.decode_encode_nil _ fits]
  · rw [if_neg fun both => same (heightKey_injective both.2), if_neg same, blockAt]

/-- What a reader makes of the block at a height: a failed read is like a missing block. -/
def readBlock (storage : Storage) (fault : Bool) (height : U64) : Option Block :=
  if fault then none else blockAt storage height

@[simp] theorem readBlock_false (storage : Storage) (height : U64) :
    readBlock storage false height = blockAt storage height := rfl

@[simp] theorem readBlock_true (storage : Storage) (height : U64) :
    readBlock storage true height = none := rfl

theorem readBlock_eq_some {storage : Storage} {fault : Bool} {height : U64} {block : Block} :
    readBlock storage fault height = some block ↔
      fault = false ∧ blockAt storage height = some block := by
  cases fault <;> simp

structure Tip (storage : Storage) (height : U64) : Prop where
  stored : (blockAt storage height).isSome
  keys : ∀ key ∈ storage.table .blocks, ∃ other ≤ height, key = heightKey other

namespace Tip

variable {storage : Storage} {height : U64}

theorem blockAt_of_lt (tip : Tip storage height) {above : U64} (more : height < above) :
    blockAt storage above = none := by
  by_contra found
  obtain ⟨block, found⟩ := Option.ne_none_iff_exists'.mp found
  obtain ⟨raw, _, found, _⟩ := blockAt_eq_some.mp found
  obtain ⟨other, le, same⟩ := tip.keys _ (AList.lookup_isSome.mp (Option.isSome_of_eq_some found))
  cases heightKey_injective same
  exact absurd le (BitVec.not_le.mpr more)

theorem put (tip : Tip storage height) {block : Block} {next : U64} (le : height ≤ next)
    (fits : Codec.block.fits block = true) :
    Tip (storage.put .blocks (heightKey next) (Codec.block.encode block)) next := by
  refine ⟨by simp [blockAt_put fits], fun key member => ?_⟩
  rw [Storage.table_put_self, AList.mem_insert] at member
  rcases member with here | before
  · exact ⟨next, BitVec.le_refl _, here⟩
  · obtain ⟨other, under, same⟩ := tip.keys key before
    exact ⟨other, BitVec.le_trans under le, same⟩

/-- The tip has the largest key. -/
theorem max_listKeys (tip : Tip storage height) :
    (storage.listKeys .blocks).max? = some (heightKey height) := by
  rw [List.max?_eq_some_iff]
  simp only [Storage.listKeys, List.mem_insertionSort]
  constructor
  · obtain ⟨block, found⟩ := Option.isSome_iff_exists.mp tip.stored
    obtain ⟨raw, _, found, _⟩ := blockAt_eq_some.mp found
    exact AList.lookup_isSome.mp (Option.isSome_of_eq_some found)
  · intro key member
    obtain ⟨other, le, rfl⟩ := tip.keys key member
    exact (heightKey_le_iff other height).mpr le

end Tip

end Mononium
