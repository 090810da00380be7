import Elfr.Container.Acceptance
import Elfr.Runtime.Verification

/-!
# The checksum of built containers

The builder computes the checksum over the container with the field zeroed, so a
built container verifies. It does on its own only: behind it there is, for every
length of the tail but zero, a tail with which it does not.
-/
namespace Elfr.Compiler

open Library LinearProbing Common Format Elfr.Runtime

section Image

variable {items : List Item} {im : Image} {b : Bytes} (h : ImageOf items im b)
include h

theorem ImageOf.verify_iff (t : Bytes) :
    erfVerifyChecksum (some (im.container b.length (b ++ t))) = .ok true ↔
      elfrCrc64 (zeroed b ++ t) = elfrCrc64 (zeroed b) := by
  have hacc := h.accepted t
  have hheader : headerBytes ≤ b.length := by
    have hle := hacc.headerBytes_le_total
    rwa [show (im.container b.length (b ++ t)).header.totalSize.toNat = b.length from
      h.totalSize] at hle
  rw [hacc.verify_iff, zeroed_append hheader]
  change _ = im.checksum ↔ _
  rw [h.checksum]
  rfl

theorem ImageOf.verifies : erfVerifyChecksum (some (im.container b.length b)) = .ok true := by
  have hiff := h.verify_iff []
  rwa [List.append_nil, List.append_nil, eq_self, iff_true] at hiff

theorem ImageOf.opens_alone :
    erfOpenMemory (some b) b.length = .ok (.ok (im.container b.length b)) := by
  have hopen := h.opens []
  rwa [List.append_nil] at hopen

end Image

/-- **The checksum verifies and detects bursts.** A built container verifies. If a
buffer verifies, then no other buffer of its length that differs from it only inside
eight consecutive bytes, all clear of the checksum field or all in it, is both accepted
and verified. -/
theorem checksum_detects_bursts :
    (∀ fs m b, Builds fs m b → b.length < 2 ^ 32 →
      ∃ c, erfOpenMemory (some b) b.length = .ok (.ok c) ∧
        erfVerifyChecksum (some c) = .ok true) ∧
    ∀ (b b' : Bytes) (c : ERFContainer) (w : ℕ),
      erfOpenMemory (some b) b.length = .ok (.ok c) → erfVerifyChecksum (some c) = .ok true →
      b'.length = b.length → b' ≠ b →
      w + 8 ≤ checksumOffset ∨ checksumOffset + 8 ≤ w ∨ w = checksumOffset →
      (∀ i, i < w ∨ w + 8 ≤ i → b'[i]? = b[i]?) →
      (∃ e, erfOpenMemory (some b') b'.length = .ok (.error e)) ∨
        ∃ c', erfOpenMemory (some b') b'.length = .ok (.ok c') ∧
          erfVerifyChecksum (some c') = .ok false := by
  constructor
  · intro fs m b hbuild hlt
    obtain ⟨items, im, -, him⟩ := hbuild.imageOf hlt
    exact ⟨_, him.opens_alone, him.verifies⟩
  · intro b b' c w hopen hverify hlen hne hw hsame
    have h := erfOpenMemory_ok_iff.mp hopen
    obtain ⟨result, hopen'⟩ := erfOpenMemory_safe b'
    cases result with
    | error e => exact .inl ⟨e, hopen'⟩
    | ok c' =>
      have h' := erfOpenMemory_ok_iff.mp hopen'
      have hfails : erfVerifyChecksum (some c') ≠ .ok true := by
        rcases hw with hbefore | hbehind | rfl
        · exact h.burst_outside_field h' hverify hlen hne (.inl hbefore) hsame
        · exact h.burst_outside_field h' hverify hlen hne (.inr hbehind) hsame
        · exact h.burst_in_field h' hverify hne hsame
      refine .inr ⟨c', hopen', ?_⟩
      rw [h'.verify_eq] at hfails ⊢
      cases hverdict : elfrCrc64 (zeroed b') == c'.header.checksum with
      | true => exact absurd (congrArg Except.ok hverdict) hfails
      | false => rfl

theorem checksum_detects_bursts_pair :
    ∃ b c, Builds pairFiles pairManifest b ∧ erfOpenMemory (some b) b.length = .ok (.ok c) ∧
      ((∃ e, erfOpenMemory (some (b.set 96 (b.getD 96 0 + 1)))
          (b.set 96 (b.getD 96 0 + 1)).length = .ok (.error e)) ∨
        ∃ c', erfOpenMemory (some (b.set 96 (b.getD 96 0 + 1)))
            (b.set 96 (b.getD 96 0 + 1)).length = .ok (.ok c') ∧
          erfVerifyChecksum (some c') = .ok false) := by
  obtain ⟨b, im, hbuild, hlen, him⟩ := builds_of_loads pair_loads pair_size
  have hfits : 96 < b.length := by
    rw [hlen]
    decide +kernel
  obtain ⟨c, hopen, hverify⟩ := checksum_detects_bursts.1 _ _ b hbuild (hlen ▸ pair_size)
  refine ⟨b, c, hbuild, hopen, checksum_detects_bursts.2 b _ c 96 hopen hverify List.length_set
    (fun heq => ?_) (.inr (.inl (by decide))) fun i hi => List.getElem?_set_ne (by omega)⟩
  have hget := congrArg (fun x : Bytes => x[96]?) heq
  simp only [List.getElem?_set_self hfits, List.getElem?_eq_getElem hfits,
    List.getD_eq_getElem _ _ hfits, Option.some.injEq] at hget
  have hnat := congrArg UInt8.toNat hget
  rw [UInt8.toNat_add] at hnat
  have hlt := b[96].toNat_lt
  change (_ + 1) % 2 ^ 8 = _ at hnat
  omega

/-- **What the checksum covers.** Opened with `n` bytes behind it, a built container verifies
whatever these are exactly if `n` is 0. Of any accepted buffer the verdict is that on its
first `total_size` bytes, whatever the `n` bytes behind, if `n` is 0; only then if these
bytes verify, and never if `n` is 8 or more. -/
theorem verdict_covers_container_iff (n : ℕ) :
    (∀ fs m b, Builds fs m b → b.length < 2 ^ 32 →
      ((∀ t, t.length = n → ∃ c, erfOpenMemory (some (b ++ t)) (b ++ t).length = .ok (.ok c) ∧
        erfVerifyChecksum (some c) = .ok true) ↔ n = 0)) ∧
    ∀ (b : Bytes) (c : ERFContainer), erfOpenMemory (some b) b.length = .ok (.ok c) →
      b.length = c.header.totalSize.toNat + n →
      let container := b.take c.header.totalSize.toNat
      (n = 0 → VerdictIgnoresTail container n) ∧ (VerdictIgnoresTail container n → n < 8) ∧
      ∃ c₀, erfOpenMemory (some container) container.length = .ok (.ok c₀) ∧
        (erfVerifyChecksum (some c₀) = .ok true → (VerdictIgnoresTail container n ↔ n = 0)) := by
  constructor
  · intro fs m b hbuild hlt
    obtain ⟨items, im, -, him⟩ := hbuild.imageOf hlt
    have hacc := erfOpenMemory_ok_iff.mp him.opens_alone
    rw [← hacc.verdictIgnoresTail_iff him.verifies]
    refine ⟨fun hall => ⟨_, _, him.opens_alone, him.verifies, hall⟩, ?_⟩
    intro hignores
    obtain rfl := (hacc.verdictIgnoresTail_iff him.verifies).mp hignores
    intro t ht
    obtain rfl := List.eq_nil_of_length_eq_zero ht
    rw [List.append_nil]
    exact ⟨_, him.opens_alone, him.verifies⟩
  · intro b c hopen _ container
    have h := erfOpenMemory_ok_iff.mp hopen
    refine ⟨?_, h.alone.lt_of_verdictIgnoresTail, c.alone, erfOpenMemory_ok_iff.mpr h.alone,
      fun hverify => h.alone.verdictIgnoresTail_iff hverify⟩
    rintro rfl
    exact h.alone.verdictIgnoresTail_zero

theorem verdict_covers_container_iff_pair :
    ∃ b, Builds pairFiles pairManifest b ∧
      (∃ c, erfOpenMemory (some b) b.length = .ok (.ok c) ∧
        erfVerifyChecksum (some c) = .ok true) ∧
      ∃ t : Bytes, t.length = 1 ∧ ∀ c, erfOpenMemory (some (b ++ t)) (b ++ t).length = .ok (.ok c) →
        erfVerifyChecksum (some c) ≠ .ok true := by
  obtain ⟨b, im, hbuild, hlen, -⟩ := builds_of_loads pair_loads pair_size
  have hiff := fun n => (verdict_covers_container_iff n).1 pairFiles pairManifest b hbuild
    (hlen ▸ pair_size)
  refine ⟨b, hbuild, ?_, ?_⟩
  · have hnone := (hiff 0).mpr rfl [] rfl
    rwa [List.append_nil] at hnone
  · by_contra hall
    push Not at hall
    exact absurd ((hiff 1).mp hall) (by decide)

def emptyManifest : ElfrcManifest := ⟨1, none, []⟩

def noFiles : FileSystem := ⟨fun _ => false, fun _ => none⟩

def emptyTable : Bytes := hashTableBytes 16 (List.replicate 16 emptyBucket)

theorem emptyTable_spec :
    BucketTable (([] : List Item).map Item.name) 16 (List.replicate 16 emptyBucket) where
  count := by decide
  length := rfl
  filled := by
    rw [occupant_replicate]
    exact .empty

/-- The register fed bit by bit. The case split on its value makes the kernel compute it
before the next byte, so evaluation does not nest. -/
def feedEagerly (crc : UInt64) : Bytes → UInt64
  | [] => crc
  | p :: data =>
    match (crc64InitStep^[8] (crc ^^^ p.toUInt64)).toNat with
    | 0 => feedEagerly 0 data
    | n + 1 => feedEagerly (UInt64.ofNat (n + 1)) data

theorem feedEagerly_eq (crc : UInt64) (data : Bytes) :
    feedEagerly crc data = data.foldl crc64Update crc := by
  induction data generalizing crc with
  | nil => rfl
  | cons p data ih =>
    rw [List.foldl_cons, crc64Update_eq_iterate]
    have hself := UInt64.ofNat_toNat (x := crc64InitStep^[8] (crc ^^^ p.toUInt64))
    unfold feedEagerly
    cases hcrc : (crc64InitStep^[8] (crc ^^^ p.toUInt64)).toNat with
    | zero =>
      rw [hcrc] at hself
      simp only [ih, ← hself]
      rfl
    | succ n =>
      rw [hcrc] at hself
      simp only [ih, hself]

/-- The container elfrc makes of a manifest without resources stops verifying when one
zero byte follows it. -/
theorem padded_container_fails :
    ∃ b c, Builds noFiles emptyManifest b ∧ b.length = 432 ∧
      erfOpenMemory (some (b ++ [0])) (b ++ [0]).length = .ok (.ok c) ∧
      erfVerifyChecksum (some c) = .ok false := by
  have hlen : (assemble [] emptyTable).length = 432 := by
    rw [length_assemble]
    decide +kernel
  have hbuild : Builds noFiles emptyManifest (assemble [] emptyTable) :=
    ⟨32, elfrcContainerBuild_eq_ok.mpr ⟨[], .nil, emptyTable, by decide +kernel, rfl⟩⟩
  have hlt : (assemble [] emptyTable).length < 2 ^ 32 := by
    rw [hlen]
    norm_num
  obtain ⟨im, him⟩ : ∃ im, ImageOf [] im (assemble [] emptyTable) :=
    ⟨_, assemble_imageOf emptyTable_spec hlt⟩
  have hdiffers : ¬ elfrCrc64 (zeroed (assemble [] emptyTable) ++ [0]) =
      elfrCrc64 (zeroed (assemble [] emptyTable)) := by
    rw [crc64Register_eq_iff, crc64Register_append, zeroed, assemble_eq,
      sealHeader_zeroed (by rw [length_withDirectory]; exact header_le_data _ _) rfl,
      crc64Register, ← feedEagerly_eq, ← feedEagerly_eq]
    decide +kernel
  refine ⟨_, _, hbuild, hlen, him.opens [0], ?_⟩
  have hverdict := (him.accepted [0]).verify_eq
  have hfails := mt (him.verify_iff [0]).mp hdiffers
  rw [hverdict] at hfails ⊢
  cases hcase : elfrCrc64 (zeroed (assemble [] emptyTable ++ [0])) ==
      (im.container (assemble [] emptyTable).length
        (assemble [] emptyTable ++ [0])).header.checksum with
  | true => exact absurd (congrArg Except.ok hcase) hfails
  | false => rfl

end Elfr.Compiler
