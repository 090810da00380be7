import Elfr.Format.Structures
import Elfr.Library.LinearProbing

/-!
# The bucket array as an open-addressing table

Compiler and runtime walk the bucket array with the same 32-bit arithmetic:
home is the hash modulo the number of buckets, the next slot is one further,
modulo that number. Below 2^32 buckets neither step loses anything.
-/
namespace Elfr.Format

open Library LinearProbing

/-- The `k`-th slot probed from `home`, as the code holds it. -/
def slotAt (bucketCount : UInt32) (home k : ℕ) : UInt32 :=
  UInt32.ofNat (probe bucketCount.toNat home k)

theorem toNat_slotAt {bucketCount : UInt32} (hpos : 0 < bucketCount.toNat) (home k : ℕ) :
    (slotAt bucketCount home k).toNat = probe bucketCount.toNat home k := by
  have hlt := bucketCount.toNat_lt
  have hprobe := probe_lt hpos home k
  rw [slotAt, UInt32.toNat_ofNat', Nat.mod_eq_of_lt (by omega)]

theorem slotAt_zero {bucketCount : UInt32} (hpos : 0 < bucketCount.toNat) (h : UInt64) :
    (h % bucketCount.toUInt64).toUInt32 = slotAt bucketCount (h.toNat % bucketCount.toNat) 0 := by
  have hlt := bucketCount.toNat_lt
  have hmod := Nat.mod_lt h.toNat hpos
  rw [← UInt32.toNat_inj, toNat_slotAt hpos, UInt64.toNat_toUInt32, UInt64.toNat_mod,
    UInt32.toNat_toUInt64, probe, Nat.add_zero, Nat.mod_mod, Nat.mod_eq_of_lt (by omega)]

theorem slotAt_succ {bucketCount : UInt32} (hpos : 0 < bucketCount.toNat) (home k : ℕ) :
    (slotAt bucketCount home k + 1) % bucketCount = slotAt bucketCount home (k + 1) := by
  have hlt := bucketCount.toNat_lt
  have hprobe := probe_lt hpos home k
  rw [← UInt32.toNat_inj, toNat_slotAt hpos, UInt32.toNat_mod, UInt32.toNat_add,
    toNat_slotAt hpos, probe_succ]
  change (_ + 1) % 2 ^ 32 % _ = _
  rw [Nat.mod_eq_of_lt (a := probe bucketCount.toNat home k + 1) (by omega)]

/-- The slot a bucket's hash asks for. -/
def bucketHome (bucketCount : UInt32) (bucket : ERFHashBucket) : ℕ :=
  bucket.hash.toNat % bucketCount.toNat

def occupant (buckets : List ERFHashBucket) : Table ERFHashBucket := fun slot =>
  buckets[slot]?.filter fun bucket => bucket.directoryIndex ≠ erfHashEmpty

theorem occupant_of_lt {buckets : List ERFHashBucket} {slot : ℕ} (h : slot < buckets.length) :
    occupant buckets slot =
      if buckets[slot].directoryIndex = erfHashEmpty then none else some buckets[slot] := by
  unfold occupant
  rw [List.getElem?_eq_getElem h]
  by_cases hempty : buckets[slot].directoryIndex = erfHashEmpty <;> simp [Option.filter, hempty]

theorem occupant_set {buckets : List ERFHashBucket} {slot : ℕ} (hslot : slot < buckets.length)
    {bucket : ERFHashBucket} (hbucket : bucket.directoryIndex ≠ erfHashEmpty) :
    occupant (buckets.set slot bucket) = Function.update (occupant buckets) slot (some bucket) := by
  funext s
  unfold occupant
  by_cases hs : s = slot
  · subst hs
    rw [Function.update_self, List.getElem?_set_self hslot]
    simp [Option.filter, hbucket]
  · rw [Function.update_of_ne hs, List.getElem?_set_ne (Ne.symm hs)]

end Elfr.Format
