import Propreact.Profiler.Proof.Publish

/-!
# Published times add up

Busy and idle times are differences modulo `2 ^ 64`. Along every run they add up to the time from
the start of the first kernel kept to the start of the last one, and `2 ^ 64` for each subtraction
that wrapped (`times_add_up`): in total no time is counted twice or left out where batches join. A
kernel that is kept twice does have its busy time in two records; an idle time that wraps makes up
for it.
-/

namespace Propreact.CuptiProfiler

open Sequences

/-- How many of the two subtractions for a kernel and its neighbour wrap: the kernel ends before it
starts, or the neighbour starts before the kernel has ended. -/
def wraps (e : ExpKeyCuptiTuple × ExpKeyCuptiTuple) : Nat :=
  (if e.1.2.second < e.1.2.first then 1 else 0) + (if e.2.2.first < e.1.2.second then 1 else 0)

def total (r : Record) : Nat := r.active.toNat + r.idle.toNat

theorem toNat_sub_add (a b : ULong) :
    (b - a).toNat + a.toNat = b.toNat + if b < a then 2 ^ 64 else 0 := by
  have ha := a.toNat_lt
  have hb := b.toNat_lt
  have hlt : b < a ↔ b.toNat < a.toNat := UInt64.lt_iff_toNat_lt
  rw [UInt64.toNat_sub]
  by_cases h : b < a
  · have h' := hlt.1 h
    rw [if_pos h]
    omega
  · have h' := mt hlt.2 h
    rw [if_neg h]
    omega

theorem total_add (e next : ExpKeyCuptiTuple) :
    total (usageOf (e, next)).record + e.2.first.toNat =
      next.2.first.toNat + 2 ^ 64 * wraps (e, next) := by
  have hactive := toNat_sub_add e.2.first e.2.second
  have hidle := toNat_sub_add e.2.second next.2.first
  have htotal : total (usageOf (e, next)).record =
      (e.2.second - e.2.first).toNat + (next.2.first - e.2.second).toNat := rfl
  have hwraps : 2 ^ 64 * wraps (e, next) = (if e.2.second < e.2.first then 2 ^ 64 else 0) +
      if next.2.first < e.2.second then 2 ^ 64 else 0 := by
    rw [wraps]
    dsimp only
    split <;> split <;> rfl
  rw [htotal, hwraps]
  omega

variable {p : CuptiProfiler} {tr : List Event} {start : ULong}

/-- **All time is accounted for.** In every run, for kernels delivered in any order: the busy and
idle times published so far add up, without wraparound, to the time from the first kept kernel's
start to the last one's, and `2 ^ 64` for each subtraction that wrapped. -/
theorem times_add_up (h : (lts start).Run tr p) :
    ((produced tr).map total).sum + p.keyvalVec.head?.elim 0 (fun e => e.2.first.toNat) =
      p.keyvalVec.getLast?.elim 0 (fun e => e.2.first.toNat) +
        2 ^ 64 * ((consecutive p.keyvalVec).map wraps).sum := by
  have hsum := sum_consecutive (f := fun e => e.2.first.toNat)
    (g := fun g => total (usageOf g).record) total_add p.keyvalVec
  rw [(reported h).produced, publishedOf, List.map_map, List.map_map]
  exact hsum

/-- Two reads, the second of a long kernel that starts before the one before it. -/
theorem wrapped_total : ∃ tr p, (lts 0).Run tr p ∧
    ((consecutive p.keyvalVec).map wraps).sum = 1 ∧
    ((produced tr).map total).sum + p.keyvalVec.head?.elim 0 (fun e => e.2.first.toNat) =
      p.keyvalVec.getLast?.elim 0 (fun e => e.2.first.toNat) +
        2 ^ 64 * ((consecutive p.keyvalVec).map wraps).sum := by
  have h1 := run_read (run_new 0) (oneBuffer [(20, 25)]) rfl
  have h2 := run_read h1 (oneBuffer [(10, 30)]) rfl
  exact ⟨_, _, h2, rfl, times_add_up h2⟩

end Propreact.CuptiProfiler
