import Mathlib.Data.List.Perm.Basic
import Mathlib.Data.List.Range
import Mathlib.Data.List.Nodup

/-!
# Lists of extents

A set of units, kept as the list of its maximal extents, in order. `allocate` takes a number of
units off the first extent that is long enough; `release` gives an extent back and joins it with
those that it touches. Both keep the list maximal, and no unit is lost or doubled.
-/

/-- The units `start`, ..., `start + len - 1`. -/
@[ext] structure Extent where
  start : Nat
  len : Nat
  deriving DecidableEq

namespace Extent
open List

/-- The unit behind the last one. -/
def stop (e : Extent) : Nat := e.start + e.len

def units (e : Extent) : List Nat := List.range' e.start e.len

def allUnits (es : List Extent) : List Nat := es.flatMap units

/-- No unit is in both. -/
def Apart (e f : Extent) : Prop := e.stop ≤ f.start ∨ f.stop ≤ e.start

/-- The extents are not empty, in order, and do not touch. -/
structure Separated (es : List Extent) : Prop where
  pos : ∀ e ∈ es, 0 < e.len
  sorted : es.Pairwise fun e f => e.stop < f.start

/-- Takes `n` units off the first extent that has as many. -/
def allocate (n : Nat) : List Extent → Option (Extent × List Extent)
  | [] => none
  | e :: es =>
    if n < e.len then some (⟨e.start, n⟩, ⟨e.start + n, e.len - n⟩ :: es)
    else if e.len = n then some (e, es)
    else (allocate n es).map fun r => (r.1, e :: r.2)

/-- Joins an extent with the first one of a list, if they touch. -/
def join (e : Extent) : List Extent → List Extent
  | [] => [e]
  | f :: fs => if e.stop = f.start then ⟨e.start, e.len + f.len⟩ :: fs else e :: f :: fs

def release (e : Extent) : List Extent → List Extent
  | [] => [e]
  | f :: fs =>
    if f.stop = e.start then join ⟨f.start, f.len + e.len⟩ fs
    else if f.start = e.stop then ⟨e.start, f.len + e.len⟩ :: fs
    else if e.stop < f.start then e :: f :: fs
    else f :: release e fs

variable {e f g : Extent} {es es' : List Extent} {n i : Nat}

@[simp] theorem mem_units : i ∈ e.units ↔ e.start ≤ i ∧ i < e.stop := by
  rw [units, mem_range'_1, stop]

@[simp] theorem allUnits_nil : allUnits [] = [] := rfl

@[simp] theorem allUnits_cons : allUnits (e :: es) = e.units ++ allUnits es := rfl

@[simp] theorem allUnits_append : allUnits (es ++ es') = allUnits es ++ allUnits es' :=
  flatMap_append

theorem units_append (h : e.stop = f.start) :
    e.units ++ f.units = units ⟨e.start, e.len + f.len⟩ := by
  rw [units, units, units, ← h, stop, List.range'_append_1]

theorem mem_allUnits : i ∈ allUnits es ↔ ∃ e ∈ es, e.start ≤ i ∧ i < e.stop := by
  simp [allUnits, mem_flatMap]

theorem Apart.symm (h : e.Apart f) : f.Apart e := Or.symm h

theorem pairwise_apart (hpos : ∀ e ∈ es, 0 < e.len) (hnodup : (allUnits es).Nodup) :
    es.Pairwise Apart := by
  rw [allUnits, nodup_flatMap] at hnodup
  refine hnodup.2.imp_of_mem fun {e f} he hf hdisjoint => ?_
  have hepos := hpos e he
  have hfpos := hpos f hf
  by_contra hmeet
  simp only [Apart, stop, not_or, Nat.not_le] at hmeet
  -- the later one of the first units is in both
  refine hdisjoint (a := max e.start f.start) ?_ ?_
  all_goals rw [mem_units, stop]; omega

theorem Separated.tail (h : Separated (e :: es)) : Separated es :=
  ⟨fun f hf => h.pos f (mem_cons_of_mem e hf), (pairwise_cons.mp h.sorted).2⟩

theorem separated_cons :
    Separated (e :: es) ↔ 0 < e.len ∧ (∀ f ∈ es, e.stop < f.start) ∧ Separated es := by
  constructor
  · intro h
    exact ⟨h.pos e mem_cons_self, (pairwise_cons.mp h.sorted).1, h.tail⟩
  · rintro ⟨hpos, hlt, h⟩
    exact ⟨forall_mem_cons.mpr ⟨hpos, h.pos⟩, pairwise_cons.mpr ⟨hlt, h.sorted⟩⟩

/-- The cases of an allocation: from the first extent, all of it, or further on. -/
theorem allocate_induction {P : List Extent → Extent → List Extent → Prop}
    (hpart : ∀ f fs, n < f.len → P (f :: fs) ⟨f.start, n⟩ (⟨f.start + n, f.len - n⟩ :: fs))
    (hall : ∀ f fs, f.len = n → P (f :: fs) f fs)
    (hnext : ∀ f fs e fs', allocate n fs = some (e, fs') → P fs e fs' → P (f :: fs) e (f :: fs'))
    (h : allocate n es = some (e, es')) : P es e es' := by
  induction es generalizing es' with
  | nil => cases h
  | cons f fs ih =>
    rw [allocate] at h
    split at h
    · rename_i hlt
      cases h
      exact hpart f fs hlt
    · split at h
      · rename_i heq
        cases h
        exact hall _ _ heq
      · obtain ⟨⟨e', fs'⟩, hfs, heq⟩ := Option.map_eq_some_iff.mp h
        cases heq
        exact hnext f fs e' fs' hfs (ih hfs)

section
variable (h : allocate n es = some (e, es'))
include h

theorem allocate_len : e.len = n :=
  allocate_induction (P := fun _ e _ => e.len = n) (fun _ _ _ => rfl) (fun _ _ heq => heq)
    (fun _ _ _ _ _ ih => ih) h

theorem allocate_units : (e.units ++ allUnits es').Perm (allUnits es) := by
  refine allocate_induction (P := fun es e es' => (e.units ++ allUnits es').Perm (allUnits es))
    (fun f fs hlt => ?_) (fun f fs _ => List.Perm.refl _) (fun f fs e fs' _ ih => ?_) h
  · have hunits := units_append (e := ⟨f.start, n⟩) (f := ⟨f.start + n, f.len - n⟩) rfl
    have hlen : n + (f.len - n) = f.len := by omega
    simp only [hlen] at hunits
    rw [allUnits_cons, ← append_assoc, hunits]
    exact List.Perm.refl _
  · rw [allUnits_cons, allUnits_cons]
    exact (perm_append_comm_assoc ..).trans (ih.append_left f.units)

theorem allocate_start : ∀ g ∈ es', ∃ f ∈ es, f.start ≤ g.start := by
  refine allocate_induction (P := fun es _ es' => ∀ g ∈ es', ∃ f ∈ es, f.start ≤ g.start)
    (fun f fs _ g hg => ?_) (fun f fs _ g hg => ?_) (fun f fs e fs' _ ih g hg => ?_) h
  · rcases mem_cons.mp hg with rfl | hg
    · exact ⟨f, mem_cons_self, Nat.le_add_right _ _⟩
    · exact ⟨g, mem_cons_of_mem f hg, le_rfl⟩
  · exact ⟨g, mem_cons_of_mem f hg, le_rfl⟩
  · rcases mem_cons.mp hg with rfl | hg
    · exact ⟨g, mem_cons_self, le_rfl⟩
    · obtain ⟨f', hf', hle⟩ := ih g hg
      exact ⟨f', mem_cons_of_mem f hf', hle⟩

end

theorem Separated.allocate (hes : Separated es) (h : allocate n es = some (e, es')) :
    Separated es' := by
  refine allocate_induction (P := fun es _ es' => Separated es → Separated es')
    (fun f fs hn hes => ?_) (fun f fs _ hes => hes.tail) (fun f fs e fs' hfs ih hes => ?_) h hes
  · obtain ⟨hpos, hlt, hfs⟩ := separated_cons.mp hes
    refine separated_cons.mpr ⟨by dsimp only; omega, fun g hg => ?_, hfs⟩
    have := hlt g hg
    simp only [stop] at this ⊢
    omega
  · obtain ⟨hpos, hlt, hsep⟩ := separated_cons.mp hes
    refine separated_cons.mpr ⟨hpos, fun g hg => ?_, ih hsep⟩
    obtain ⟨f', hf', hle⟩ := allocate_start hfs g hg
    exact Nat.lt_of_lt_of_le (hlt f' hf') hle

theorem allocate_eq_none_iff : allocate n es = none ↔ ∀ f ∈ es, f.len < n := by
  induction es with
  | nil => simp [allocate]
  | cons f fs ih =>
    rw [allocate, forall_mem_cons]
    split_ifs with hlt heq
    · exact iff_of_false nofun fun h => absurd h.1 (by omega)
    · exact iff_of_false nofun fun h => absurd h.1 (by omega)
    · rw [Option.map_eq_none_iff, ih, and_iff_right (by omega)]

theorem Separated.exists_le_len (hes : Separated es) (hn : 0 < n) {p : Nat}
    (h : ∀ i < n, p + i ∈ allUnits es) : ∃ f ∈ es, n ≤ f.len := by
  induction es with
  | nil => exact absurd (h 0 hn) not_mem_nil
  | cons e es ih =>
    obtain ⟨-, hlt, hsep⟩ := separated_cons.mp hes
    have hbehind : ∀ u ∈ allUnits es, e.stop < u := by
      intro u hu
      obtain ⟨f, hf, hle, -⟩ := mem_allUnits.mp hu
      exact Nat.lt_of_lt_of_le (hlt f hf) hle
    simp only [allUnits_cons, mem_append, mem_units] at h
    rcases h 0 hn with hp | hp
    · refine ⟨e, mem_cons_self, ?_⟩
      by_contra hlen
      -- the unit at the end of `e` is in no extent
      have hstop : e.stop = e.start + e.len := rfl
      rcases h (e.stop - p) (by omega) with hend | hend
      · omega
      · have := hbehind _ hend
        omega
    · have hfirst := hbehind _ hp
      obtain ⟨f, hf, hle⟩ := ih hsep fun i hi => (h i hi).resolve_left (by omega)
      exact ⟨f, mem_cons_of_mem e hf, hle⟩

theorem allocate_append (hshort : ∀ f ∈ es, f.len < n) :
    allocate n (es ++ es') = (allocate n es').map fun r => (r.1, es ++ r.2) := by
  induction es with
  | nil => simp
  | cons f fs ih =>
    have hf := hshort f mem_cons_self
    rw [cons_append, allocate, if_neg (by omega), if_neg (by omega),
      ih fun g hg => hshort g (mem_cons_of_mem f hg), Option.map_map]
    rfl

theorem join_units : allUnits (join e es) = e.units ++ allUnits es := by
  cases es with
  | nil => rfl
  | cons f fs =>
    rw [join]
    split
    · rename_i htouch
      rw [allUnits_cons, allUnits_cons, ← append_assoc, units_append htouch]
    · rfl

theorem join_start (hg : g ∈ join e es) : g.start = e.start ∨ g ∈ es := by
  cases es with
  | nil =>
    rw [mem_singleton.mp hg]
    exact .inl rfl
  | cons f fs =>
    rw [join] at hg
    split at hg
    · rcases mem_cons.mp hg with rfl | hg
      · exact .inl rfl
      · exact .inr (mem_cons_of_mem f hg)
    · rcases mem_cons.mp hg with rfl | hg
      · exact .inl rfl
      · exact .inr hg

theorem Separated.join (hes : Separated es) (hpos : 0 < e.len) (hle : ∀ f ∈ es, e.stop ≤ f.start) :
    Separated (join e es) := by
  cases es with
  | nil => exact separated_cons.mpr ⟨hpos, by simp, hes⟩
  | cons f fs =>
    obtain ⟨hf, hlt, hfs⟩ := separated_cons.mp hes
    have hef := hle f mem_cons_self
    rw [Extent.join]
    split
    · rename_i htouch
      refine separated_cons.mpr ⟨by dsimp only; omega, fun g hg => ?_, hfs⟩
      have := hlt g hg
      simp only [stop] at this htouch ⊢
      omega
    · rename_i hne
      refine separated_cons.mpr ⟨hpos, fun g hg => ?_, hes⟩
      rcases mem_cons.mp hg with rfl | hg
      · omega
      · have := hlt g hg
        simp only [stop] at this hef ⊢
        omega

theorem release_units : (allUnits (release e es)).Perm (e.units ++ allUnits es) := by
  induction es with
  | nil => exact List.Perm.refl _
  | cons f fs ih =>
    rw [release, allUnits_cons]
    split
    · rename_i htouch
      rw [join_units, ← units_append htouch, ← append_assoc]
      exact perm_append_comm.append_right _
    · split
      · rename_i htouch
        rw [allUnits_cons, Nat.add_comm, ← units_append htouch.symm, append_assoc]
      · split
        · exact List.Perm.refl _
        · rw [allUnits_cons]
          exact (ih.append_left f.units).trans (perm_append_comm_assoc ..)

theorem release_append (hbelow : ∀ f ∈ es, f.stop < e.start) :
    release e (es ++ es') = es ++ release e es' := by
  induction es with
  | nil => rfl
  | cons f fs ih =>
    have hf := hbelow f mem_cons_self
    have hstop : f.start ≤ f.stop ∧ e.start ≤ e.stop := ⟨Nat.le_add_right _ _, Nat.le_add_right _ _⟩
    rw [cons_append, release, if_neg (by omega), if_neg (by omega), if_neg (by omega),
      ih fun g hg => hbelow g (mem_cons_of_mem f hg), cons_append]

theorem release_start (hg : g ∈ release e es) :
    g.start = e.start ∨ ∃ f ∈ es, g.start = f.start := by
  induction es with
  | nil =>
    rw [mem_singleton.mp hg]
    exact .inl rfl
  | cons f fs ih =>
    have hold : ∀ {g'}, g' ∈ f :: fs → g.start = g'.start →
        g.start = e.start ∨ ∃ f' ∈ f :: fs, g.start = f'.start := fun hg' heq => .inr ⟨_, hg', heq⟩
    rw [release] at hg
    split at hg
    · rcases join_start hg with hstart | hmem
      · exact hold mem_cons_self hstart
      · exact hold (mem_cons_of_mem f hmem) rfl
    · split at hg
      · rcases mem_cons.mp hg with rfl | hg
        · exact .inl rfl
        · exact hold (mem_cons_of_mem f hg) rfl
      · split at hg
        · rcases mem_cons.mp hg with rfl | hg
          · exact .inl rfl
          · exact hold hg rfl
        · rcases mem_cons.mp hg with rfl | hg
          · exact hold mem_cons_self rfl
          · rcases ih hg with hstart | ⟨f', hf', heq⟩
            · exact .inl hstart
            · exact hold (mem_cons_of_mem f hf') heq

theorem Separated.release (hes : Separated es) (hpos : 0 < e.len) (hapart : ∀ f ∈ es, e.Apart f) :
    Separated (release e es) := by
  induction es with
  | nil => exact separated_cons.mpr ⟨hpos, by simp, hes⟩
  | cons f fs ih =>
    obtain ⟨hf, hlt, hfs⟩ := separated_cons.mp hes
    have hef := hapart f mem_cons_self
    have hrest : ∀ g ∈ fs, f.stop < g.start ∧ e.Apart g := fun g hg =>
      ⟨hlt g hg, hapart g (mem_cons_of_mem f hg)⟩
    rw [Extent.release]
    split
    · rename_i htouch
      refine hfs.join (by dsimp only; omega) fun g hg => ?_
      have := hrest g hg
      simp only [Apart, stop] at this htouch ⊢
      omega
    · rename_i hne
      split
      · rename_i htouch
        refine separated_cons.mpr ⟨by dsimp only; omega, fun g hg => ?_, hfs⟩
        have := hrest g hg
        simp only [Apart, stop] at this htouch ⊢
        omega
      · rename_i hne'
        split
        · rename_i hbelow
          refine separated_cons.mpr ⟨hpos, fun g hg => ?_, hes⟩
          rcases mem_cons.mp hg with rfl | hg
          · exact hbelow
          · have := hrest g hg
            simp only [stop] at this hbelow ⊢
            omega
        · rename_i habove
          refine separated_cons.mpr ⟨hf, fun g hg => ?_, ih hfs fun g hg => (hrest g hg).2⟩
          rcases release_start hg with hstart | ⟨f', hf', hstart⟩
          · rw [hstart]
            simp only [Apart, stop] at hef hne hne' habove ⊢
            omega
          · rw [hstart]
            exact hlt f' hf'

end Extent
