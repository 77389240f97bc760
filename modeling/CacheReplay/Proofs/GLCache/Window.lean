import Mathlib
import CacheReplay.Proofs.Outcome
import CacheReplay.GLCache.Window

set_option autoImplicit false

/-!
# Hit windows and the history of hits

Windows of a width shift when a hit finds them over, and coarser ones only
together with finer ones. Main statement: as long as nothing overflows, the
first windows of a width count what came since a shift of that width, the hit
that caused it with them. The three widths so tell of nested ends of the
history.
-/
namespace CacheReplay.GLCache

inductive Width where
  | minute
  | tenMinutes
  | hour
  deriving Repr, DecidableEq

def Width.seconds : Width → Int
  | .minute => 60
  | .tenMinutes => 600
  | .hour => 3600

/-- The hits in the current window and in the `k` windows before it. -/
def Track.latest (c : Track) (k : Nat) : Nat := (c.counts.take (k + 1)).sum

namespace HitWindows

def track (w : HitWindows) : Width → Track
  | .minute => w.minute
  | .tenMinutes => w.tenMinutes
  | .hour => w.hour

theorem track_start (now : Int) (width : Width) : (start now).track width = .start now := by
  cases width <;> rfl

def shifts (w : HitWindows) (now : Int) (width : Width) : Bool :=
  match w.advance now with
  | .ok v => v.track width != w.track width
  | .error _ => false

/-- A hit finds the windows of a width over, and those of every finer width. -/
def Over (w : HitWindows) (now : Int) (width : Width) : Prop :=
  ∀ finer : Width, finer.seconds ≤ width.seconds → finer.seconds ≤ now - (w.track finer).opened

end HitWindows

section
variable {t : Tolerance}

theorem tdiv_pos_iff {a b : Int} (pos : 0 < b) : 0 < a.tdiv b ↔ b ≤ a := by
  rcases Int.le_total 0 a with nonneg | neg
  · rw [Int.tdiv_eq_ediv_of_nonneg nonneg]
    have := Int.le_ediv_iff_mul_le (a := 1) (b := a) pos
    omega
  · have := Int.tdiv_nonneg (Int.neg_nonneg_of_nonpos neg) (Int.le_of_lt pos)
    rw [Int.neg_tdiv] at this
    omega

namespace Track
variable (c : Track) (now : Int)

theorem settles_due_seconds (width : Width) :
    Settles t (c.due width.seconds now) fun due => due = decide (width.seconds ≤ now - c.opened) := by
  refine settles_bind (settles_subTime now c.opened) fun elapsed e => settles_pure ?_
  have pos : 0 < width.seconds := by cases width <;> decide
  rw [e, decide_eq_decide]
  exact tdiv_pos_iff pos

theorem latest_shift_zero : (c.shift now).latest 0 = 0 := by simp [latest, shift]

theorem latest_shift_succ {k : Nat} (kept : k + 1 < windowCount) : (c.shift now).latest (k + 1) = c.latest k := by
  have le : k + 1 ≤ windowCount - 1 := by omega
  simp [latest, shift, List.take_take, Nat.min_eq_left le]

theorem settles_bump_latest {c : Track} (some : c.counts ≠ []) :
    Settles t c.bump fun u => u.opened = c.opened ∧ u.counts.length = c.counts.length ∧
      ∀ k, u.latest k = c.latest k + 1 := by
  unfold bump
  split
  · contradiction
  · rename_i n ns counts
    refine settles_bind (settles_addCount n 1) fun _ e => settles_pure ?_
    subst e
    refine ⟨rfl, by rw [counts, List.length_cons, List.length_cons], fun k => ?_⟩
    simp only [latest, counts, List.take_succ_cons, List.sum_cons]
    omega

end Track

namespace HitWindows
variable {w v : HitWindows} {now : Int}

theorem Over.finer {u width : Width} (ended : w.Over now width) (le : u.seconds ≤ width.seconds) :
    w.Over now u :=
  fun finer le' => ended finer (Int.le_trans le' le)

theorem over_minute_iff : w.Over now .minute ↔ 60 ≤ now - w.minute.opened := by
  constructor
  · exact fun ended => ended .minute (Int.le_refl _)
  · intro due finer le
    cases finer with
    | minute => exact due
    | tenMinutes => contradiction
    | hour => contradiction

theorem over_tenMinutes_iff :
    w.Over now .tenMinutes ↔ w.Over now .minute ∧ 600 ≤ now - w.tenMinutes.opened := by
  constructor
  · exact fun ended => ⟨ended.finer (by decide), ended .tenMinutes (Int.le_refl _)⟩
  · rintro ⟨ended, due⟩ finer le
    cases finer with
    | minute => exact ended .minute (Int.le_refl _)
    | tenMinutes => exact due
    | hour => contradiction

theorem over_hour_iff : w.Over now .hour ↔ w.Over now .tenMinutes ∧ 3600 ≤ now - w.hour.opened := by
  constructor
  · exact fun ended => ⟨ended.finer (by decide), ended .hour (Int.le_refl _)⟩
  · rintro ⟨ended, due⟩ finer le
    cases finer with
    | minute => exact ended .minute (by decide)
    | tenMinutes => exact ended .tenMinutes (Int.le_refl _)
    | hour => exact due

/-- The windows that the hit finds over are shifted, and all others are left alone. -/
def Advances (w v : HitWindows) (now : Int) : Prop := ∀ width,
  w.Over now width ∧ v.track width = (w.track width).shift now ∨
    ¬w.Over now width ∧ v.track width = w.track width

/-- By cases on the coarsest windows that are over. -/
theorem settles_advance (w : HitWindows) (now : Int) :
    Settles t (w.advance now) fun v => w.Advances v now := by
  refine settles_bind (w.minute.settles_due_seconds now .minute) fun due e => ?_
  have minute : w.Over now .minute ↔ due = true := by
    rw [e, decide_eq_true_iff]
    exact over_minute_iff
  cases due with
  | false =>
    have none : ∀ width, ¬w.Over now width := fun width ended =>
      Bool.false_ne_true (minute.mp (ended.finer (by cases width <;> decide)))
    exact settles_pure fun width => .inr ⟨none width, rfl⟩
  | true =>
    refine settles_bind (w.tenMinutes.settles_due_seconds now .tenMinutes) fun due e => ?_
    have tenMinutes : w.Over now .tenMinutes ↔ due = true := by
      rw [e, decide_eq_true_iff, over_tenMinutes_iff]
      exact and_iff_right (minute.mpr rfl)
    cases due with
    | false =>
      refine settles_pure fun width => ?_
      have early : ¬w.Over now .tenMinutes := fun ended => Bool.false_ne_true (tenMinutes.mp ended)
      cases width with
      | minute => exact .inl ⟨minute.mpr rfl, rfl⟩
      | tenMinutes => exact .inr ⟨early, rfl⟩
      | hour => exact .inr ⟨fun ended => early (ended.finer (by decide)), rfl⟩
    | true =>
      refine settles_bind (w.hour.settles_due_seconds now .hour) fun due e => ?_
      have hour : w.Over now .hour ↔ due = true := by
        rw [e, decide_eq_true_iff, over_hour_iff]
        exact and_iff_right (tenMinutes.mpr rfl)
      cases due with
      | false =>
        refine settles_pure fun width => ?_
        cases width with
        | minute => exact .inl ⟨minute.mpr rfl, rfl⟩
        | tenMinutes => exact .inl ⟨tenMinutes.mpr rfl, rfl⟩
        | hour => exact .inr ⟨fun ended => Bool.false_ne_true (hour.mp ended), rfl⟩
      | true =>
        refine settles_pure fun width => ?_
        cases width with
        | minute => exact .inl ⟨minute.mpr rfl, rfl⟩
        | tenMinutes => exact .inl ⟨tenMinutes.mpr rfl, rfl⟩
        | hour => exact .inl ⟨hour.mpr rfl, rfl⟩

/-- A window that is over did not open at the very hit, so its shift can be seen. -/
theorem Advances.ne_iff (advances : w.Advances v now) (width : Width) :
    v.track width ≠ w.track width ↔ w.Over now width := by
  rcases advances width with ⟨ended, shifted⟩ | ⟨not, left⟩
  · refine iff_of_true (fun same => ?_) ended
    have late := ended width (Int.le_refl _)
    have opened : (w.track width).opened = now := by rw [← same, shifted]; rfl
    rw [opened, Int.sub_self] at late
    cases width <;> contradiction
  · exact iff_of_false (fun moved => moved left) not

theorem shifts_iff (e : w.advance now = .ok v) (width : Width) :
    w.shifts now width = true ↔ w.Over now width := by
  have advances := w.settles_advance (t := .any) now
  rw [e] at advances
  simp only [shifts, e, bne_iff_ne]
  exact Advances.ne_iff advances width

end HitWindows
end

/-- The hits that windows are given, one after the other, from their start on. -/
structure HitHistory where
  start : Int
  hits : List Int
  deriving Repr, DecidableEq

namespace HitHistory

def windows (h : HitHistory) : Checked HitWindows := h.hits.foldlM HitWindows.recordHit (.start h.start)

def before (h : HitHistory) (i : Nat) : HitHistory := { h with hits := h.hits.take i }

def record (h : HitHistory) (now : Int) : HitHistory := { h with hits := h.hits ++ [now] }

def shiftsAt (h : HitHistory) (width : Width) (i : Nat) : Bool :=
  match (h.before i).windows, h.hits[i]? with
  | .ok w, some now => w.shifts now width
  | _, _ => false

def shifts (h : HitHistory) (width : Width) : List Nat :=
  (List.range h.hits.length).reverse.filter (h.shiftsAt width)

/-- The hits from the one at the `k + 1`-th latest shift on, or all hits if there were at most `k` shifts. -/
def since (h : HitHistory) (width : Width) (k : Nat) : List Int :=
  match (h.shifts width)[k]? with
  | some i => h.hits.drop i
  | none => h.hits

def opened (h : HitHistory) (width : Width) : Int :=
  match h.shifts width with
  | i :: _ => h.hits[i]?.getD h.start
  | [] => h.start

section
variable {h : HitHistory} {w v : HitWindows} {now : Int} {width : Width} {t : Tolerance}

theorem windows_record (h : HitHistory) (now : Int) :
    (h.record now).windows = h.windows >>= fun w => w.recordHit now := by
  simp only [windows, record, List.foldlM_append, List.foldlM_cons, List.foldlM_nil, bind_pure]

theorem before_record {i : Nat} (le : i ≤ h.hits.length) : (h.record now).before i = h.before i := by
  simp only [before, record, List.take_append_of_le_length le]

theorem before_length (h : HitHistory) : h.before h.hits.length = h := by
  simp only [before, List.take_length]

theorem mem_shifts_iff {i : Nat} : i ∈ h.shifts width ↔ i < h.hits.length ∧ h.shiftsAt width i = true := by
  simp only [shifts, List.mem_filter, List.mem_reverse, List.mem_range]

theorem shiftsAt_record_of_lt {i : Nat} (lt : i < h.hits.length) :
    (h.record now).shiftsAt width i = h.shiftsAt width i := by
  have same : (h.record now).hits[i]? = h.hits[i]? := List.getElem?_append_left lt
  simp only [shiftsAt, before_record (Nat.le_of_lt lt), same]

theorem shiftsAt_record_self (run : h.windows = .ok w) :
    (h.record now).shiftsAt width h.hits.length = w.shifts now width := by
  have last : (h.record now).hits[h.hits.length]? = some now := List.getElem?_concat_length
  simp only [shiftsAt, before_record (Nat.le_refl _), before_length, run, last]

theorem shifts_record (run : h.windows = .ok w) : (h.record now).shifts width =
    if w.shifts now width then h.hits.length :: h.shifts width else h.shifts width := by
  have length : (h.record now).hits.length = h.hits.length + 1 := List.length_append
  have earlier : (List.range h.hits.length).reverse.filter ((h.record now).shiftsAt width) =
      h.shifts width := by
    apply List.filter_congr
    intro i hi
    exact shiftsAt_record_of_lt (List.mem_range.mp (List.mem_reverse.mp hi))
  rw [shifts, length, List.range_succ, List.reverse_append, List.reverse_singleton, List.singleton_append,
    List.filter_cons, shiftsAt_record_self run, earlier]

theorem since_eq_drop (h : HitHistory) (width : Width) (k : Nat) :
    h.since width k = h.hits.drop ((h.shifts width)[k]?.getD 0) := by
  unfold since
  cases (h.shifts width)[k]? with
  | some i => rfl
  | none => rfl

theorem getD_shifts_le (h : HitHistory) (width : Width) (k : Nat) :
    (h.shifts width)[k]?.getD 0 ≤ h.hits.length := by
  cases e : (h.shifts width)[k]? with
  | none => exact Nat.zero_le _
  | some i => exact Nat.le_of_lt (mem_shifts_iff.mp (List.mem_of_getElem? e)).1

theorem since_record_of_stay (stay : (h.record now).shifts width = h.shifts width) (k : Nat) :
    (h.record now).since width k = h.since width k ++ [now] := by
  rw [since_eq_drop, since_eq_drop, stay]
  exact List.drop_append_of_le_length (h.getD_shifts_le width k)

section
variable (shift : (h.record now).shifts width = h.hits.length :: h.shifts width)
include shift

theorem since_record_zero : (h.record now).since width 0 = [now] := by
  rw [since_eq_drop, shift]
  exact List.drop_left

theorem since_record_succ (k : Nat) : (h.record now).since width (k + 1) = h.since width k ++ [now] := by
  rw [since_eq_drop, since_eq_drop, shift, List.getElem?_cons_succ]
  exact List.drop_append_of_le_length (h.getD_shifts_le width k)

theorem opened_record_of_shift : (h.record now).opened width = now := by
  rw [opened, shift]
  exact congrArg (Option.getD · h.start) List.getElem?_concat_length

end

theorem opened_record_of_stay (stay : (h.record now).shifts width = h.shifts width) :
    (h.record now).opened width = h.opened width := by
  unfold opened
  rw [stay]
  cases e : h.shifts width with
  | nil => rfl
  | cons i rest =>
    have lt : i < h.hits.length := (mem_shifts_iff.mp (e ▸ List.mem_cons_self)).1
    exact congrArg (Option.getD · h.start) (List.getElem?_append_left lt)

end
end HitHistory

/-- The track of a width tells how many hits came since each of the latest shifts. -/
structure Track.Recounts (c : Track) (h : HitHistory) (width : Width) : Prop where
  length : c.counts.length = windowCount
  opened : c.opened = h.opened width
  latest : ∀ k < windowCount, c.latest k = (h.since width k).length

section
variable {t : Tolerance} {h : HitHistory} {c : Track} {w v : HitWindows} {now : Int} {width : Width}

theorem Track.recounts_start (start : Int) (width : Width) : (Track.start start).Recounts ⟨start, []⟩ width where
  length := List.length_replicate
  opened := rfl
  latest k _ := by
    rw [HitHistory.since_eq_drop, List.drop_nil]
    simp [Track.latest, Track.start]

theorem Track.Recounts.ne_nil (r : c.Recounts h width) : c.counts ≠ [] := by
  intro none
  have length := r.length
  rw [none] at length
  contradiction

theorem Track.Recounts.settles_stay (r : c.Recounts h width)
    (stay : (h.record now).shifts width = h.shifts width) :
    Settles t c.bump fun u => u.Recounts (h.record now) width := by
  refine (settles_bump_latest r.ne_nil).mono fun u ⟨opened, length, latest⟩ => ?_
  refine ⟨length.trans r.length, ?_, fun k kept => ?_⟩
  · rw [opened, r.opened, HitHistory.opened_record_of_stay stay]
  · rw [latest, r.latest k kept, HitHistory.since_record_of_stay stay, List.length_append, List.length_singleton]

theorem Track.Recounts.settles_shift (r : c.Recounts h width)
    (shift : (h.record now).shifts width = h.hits.length :: h.shifts width) :
    Settles t (c.shift now).bump fun u => u.Recounts (h.record now) width := by
  have some : (c.shift now).counts ≠ [] := List.cons_ne_nil _ _
  refine (settles_bump_latest some).mono fun u ⟨opened, length, latest⟩ => ?_
  refine ⟨length.trans (shift_length r.length now), ?_, fun k kept => ?_⟩
  · rw [opened, HitHistory.opened_record_of_shift shift]
    rfl
  · rw [latest]
    cases k with
    | zero => rw [latest_shift_zero, HitHistory.since_record_zero shift, List.length_singleton]
    | succ k =>
      rw [latest_shift_succ c now kept, r.latest k (Nat.lt_of_succ_lt kept),
        HitHistory.since_record_succ shift, List.length_append, List.length_singleton]

namespace HitHistory

theorem settles_recordHit (run : h.windows = .ok w) (r : ∀ width, (w.track width).Recounts h width) :
    Settles t (w.recordHit now) fun v => ∀ width, (v.track width).Recounts (h.record now) width := by
  refine settles_bind (w.settles_advance now).eq_ok fun v ⟨e, advances⟩ => ?_
  have bump : ∀ width, Settles t (v.track width).bump fun u => u.Recounts (h.record now) width := by
    intro width
    have shifts : (h.record now).shifts width = _ := shifts_record run
    have seen := HitWindows.shifts_iff e width
    rcases advances width with ⟨late, shifted⟩ | ⟨early, left⟩
    · rw [if_pos (seen.mpr late)] at shifts
      rw [shifted]
      exact (r width).settles_shift shifts
    · rw [if_neg fun shift => early (seen.mp shift)] at shifts
      rw [left]
      exact (r width).settles_stay shifts
  refine settles_bind (bump .minute) fun minute told => ?_
  refine settles_bind (bump .tenMinutes) fun tenMinutes told' => ?_
  refine settles_bind (bump .hour) fun hour told'' => settles_pure fun width => ?_
  cases width with
  | minute => exact told
  | tenMinutes => exact told'
  | hour => exact told''

theorem settles_windows (h : HitHistory) :
    Settles t h.windows fun w => ∀ width, (w.track width).Recounts h width := by
  obtain ⟨start, hits⟩ := h
  induction hits using List.reverseRecOn with
  | nil =>
    refine settles_pure fun width => ?_
    rw [HitWindows.track_start]
    exact Track.recounts_start start width
  | append_singleton hits now ih =>
    change Settles t (record ⟨start, hits⟩ now).windows _
    rw [windows_record]
    exact settles_bind ih.eq_ok fun w ⟨run, r⟩ => settles_recordHit run r

/-- Every hit found the windows that the hits before it had left, and advanced them. -/
theorem exists_advance (run : h.windows = .ok w) {i : Nat} (hi : i < h.hits.length) :
    ∃ u v, (h.before i).windows = .ok u ∧ u.advance h.hits[i] = .ok v := by
  have split : h.hits = h.hits.take i ++ h.hits[i] :: h.hits.drop (i + 1) := by
    rw [← List.drop_eq_getElem_cons hi, List.take_append_drop]
  rw [windows, split, List.foldlM_append, bind_eq_ok_iff] at run
  obtain ⟨u, found, rest⟩ := run
  rw [List.foldlM_cons] at rest
  obtain ⟨_, recorded, -⟩ := bind_eq_ok_iff.mp rest
  obtain ⟨v, advanced, -⟩ := bind_eq_ok_iff.mp recorded
  exact ⟨u, v, found, advanced⟩

/-- When the windows of a width shift, in terms of the history alone. -/
theorem shiftsAt_iff (run : h.windows = .ok w) {i : Nat} (hi : i < h.hits.length) (width : Width) :
    h.shiftsAt width i = true ↔ ∀ finer : Width, finer.seconds ≤ width.seconds →
      finer.seconds ≤ h.hits[i] - (h.before i).opened finer := by
  obtain ⟨u, v, found, advanced⟩ := exists_advance run hi
  have r := (h.before i).settles_windows (t := .any)
  rw [found] at r
  have hit : h.hits[i]? = some h.hits[i] := List.getElem?_eq_getElem hi
  simp only [shiftsAt, found, hit, HitWindows.shifts_iff advanced]
  apply forall_congr'
  intro finer
  rw [(r finer).opened]

end HitHistory
end

theorem HitWindows.shifts_finer {w : HitWindows} {now : Int} {u width : Width} (le : u.seconds ≤ width.seconds)
    (shift : w.shifts now width = true) : w.shifts now u = true := by
  cases e : w.advance now with
  | error fault =>
    rw [shifts, e] at shift
    contradiction
  | ok v => exact (shifts_iff e u).mpr (((shifts_iff e width).mp shift).finer le)

section
variable {xs ys : List Nat} (desc : ys.Pairwise (· > ·))
include desc

theorem getD_le_of_le {i j : Nat} (le : i ≤ j) : ys[j]?.getD 0 ≤ ys[i]?.getD 0 := by
  rcases Nat.lt_or_ge j ys.length with inside | outside
  · rcases Nat.eq_or_lt_of_le le with rfl | lt
    · exact Nat.le_refl _
    · rw [List.getElem?_eq_getElem inside, List.getElem?_eq_getElem (Nat.lt_trans lt inside)]
      exact Nat.le_of_lt (List.pairwise_iff_getElem.mp desc i j _ inside lt)
  · rw [List.getElem?_eq_none outside]
    exact Nat.zero_le _

theorem getD_le_of_sublist (sub : xs.Sublist ys) (k : Nat) : xs[k]?.getD 0 ≤ ys[k]?.getD 0 := by
  obtain ⟨place, same⟩ := List.sublist_iff_exists_orderEmbedding_getElem?_eq.mp sub
  rw [same k]
  exact getD_le_of_le desc (StrictMono.le_apply place.strictMono)

end

namespace HitHistory
variable (h : HitHistory) {u width : Width}

theorem shifts_sublist (le : u.seconds ≤ width.seconds) : (h.shifts width).Sublist (h.shifts u) := by
  apply List.monotone_filter_right
  intro i shift
  unfold shiftsAt at shift ⊢
  split at shift
  · exact HitWindows.shifts_finer le shift
  · contradiction

theorem pairwise_shifts (width : Width) : (h.shifts width).Pairwise (· > ·) :=
  (List.pairwise_reverse.mpr List.pairwise_lt_range).filter _

theorem since_suffix (le : u.seconds ≤ width.seconds) (k : Nat) : h.since u k <:+ h.since width k := by
  rw [since_eq_drop, since_eq_drop]
  apply List.drop_suffix_drop_left
  exact getD_le_of_sublist (h.pairwise_shifts u) (h.shifts_sublist le) k

theorem since_suffix_hits (width : Width) (k : Nat) : h.since width k <:+ h.hits := by
  rw [since_eq_drop]
  exact List.drop_suffix _ _

/-- What windows tell of the history that they were given. -/
structure Nests (h : HitHistory) (w : HitWindows) : Prop where
  /-- The first `k + 1` windows of a width count the hits since the `k + 1`-th latest shift, or all hits. -/
  counts : ∀ width, ∀ k < windowCount, (w.track width).latest k = (h.since width k).length
  tenMinutes : (h.shifts .tenMinutes).Sublist (h.shifts .minute)
  hour : (h.shifts .hour).Sublist (h.shifts .tenMinutes)
  ends : ∀ k, h.since .minute k <:+ h.since .tenMinutes k ∧ h.since .tenMinutes k <:+ h.since .hour k ∧
    h.since .hour k <:+ h.hits
  ascends : ∀ k < windowCount, w.minute.latest k ≤ w.tenMinutes.latest k ∧
    w.tenMinutes.latest k ≤ w.hour.latest k ∧ w.hour.latest k ≤ h.hits.length
  /-- A shift comes when the current window is as old as it is wide, and so are all finer ones. -/
  timely : ∀ i (hi : i < h.hits.length) width, i ∈ h.shifts width ↔ ∀ finer : Width,
    finer.seconds ≤ width.seconds → finer.seconds ≤ h.hits[i] - (h.before i).opened finer

/--
Hits can be recorded as long as nothing overflows, at whatever times and in whatever order they come. The
first `k + 1` windows of each width then count an end of the history: the hits since the `k + 1`-th latest
shift of that width, with the hit that caused it, or all hits if there were at most `k` shifts. Windows
shift only together with all finer ones, so the ends are nested and the counts ascend with the width.
-/
theorem windows_nest (inRange : h.windows ≠ .error .overflow) : Yields h.windows h.Nests := by
  have finer : Width.minute.seconds ≤ Width.tenMinutes.seconds := by decide
  have coarser : Width.tenMinutes.seconds ≤ Width.hour.seconds := by decide
  have ends : ∀ k, h.since .minute k <:+ h.since .tenMinutes k ∧ h.since .tenMinutes k <:+ h.since .hour k ∧
      h.since .hour k <:+ h.hits :=
    fun k => ⟨h.since_suffix finer k, h.since_suffix coarser k, h.since_suffix_hits .hour k⟩
  apply (h.settles_windows.eq_ok.yields inRange).mono
  rintro w ⟨run, r⟩
  refine ⟨fun width => (r width).latest, h.shifts_sublist finer, h.shifts_sublist coarser, ends, ?_, ?_⟩
  · intro k kept
    obtain ⟨minute, tenMinutes, hour⟩ := ends k
    have counts := fun width => (r width).latest k kept
    refine ⟨?_, ?_, ?_⟩
    · exact (counts .minute).trans_le (minute.length_le.trans_eq (counts .tenMinutes).symm)
    · exact (counts .tenMinutes).trans_le (tenMinutes.length_le.trans_eq (counts .hour).symm)
    · exact (counts .hour).trans_le hour.length_le
  · intro i hi width
    rw [mem_shifts_iff, shiftsAt_iff run hi]
    exact and_iff_right hi

/-- Time goes back at the third, the fifth and the seventh hit; the last one shifts all windows. -/
theorem windows_nest_backwards :
    let h : HitHistory := ⟨0, [10, 70, 5, 700, 640, 4000, 3990, 8200]⟩
    h.windows ≠ .error .overflow ∧ h.shifts .minute = [7, 5, 3, 1] ∧ h.shifts .tenMinutes = [7, 5, 3] ∧
      h.shifts .hour = [7, 5] ∧ Yields h.windows h.Nests := by
  intro h
  have run : h.windows = .ok ⟨⟨[1, 2, 2, 2, 1, 0, 0, 0], 8200⟩, ⟨[1, 2, 2, 3, 0, 0, 0, 0], 8200⟩,
      ⟨[1, 2, 5, 0, 0, 0, 0, 0], 8200⟩⟩ := rfl
  have inRange : h.windows ≠ .error .overflow := by
    rw [run]
    exact fun e => nomatch e
  exact ⟨inRange, rfl, rfl, rfl, windows_nest h inRange⟩

end HitHistory
end CacheReplay.GLCache
