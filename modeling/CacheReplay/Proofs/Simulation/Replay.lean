import CacheReplay.Proofs.Run
import CacheReplay.Simulation

set_option autoImplicit false

namespace CacheReplay
open EvictionPolicy

theorem addTime_eq_ok_iff_shift (t : Option Int) (d : Int) (u : Option Int) :
    t.mapM (addTime · d) = (.ok u : Checked (Option Int)) ↔
      u = t.map (· + d) ∧ ∀ h, t = some h → IsTime (h + d) := by
  cases t with
  | none =>
    constructor
    · intro e
      cases e
      exact ⟨rfl, nofun⟩
    · rintro ⟨rfl, -⟩
      rfl
  | some h =>
    rw [Option.mapM_some, map_eq_pure_bind, bind_eq_ok_iff]
    constructor
    · rintro ⟨a, sum, e⟩
      cases e
      obtain ⟨rfl, time⟩ := (addTime_eq_ok_iff h d a).mp sum
      exact ⟨rfl, fun _ same => by cases same; exact time⟩
    · rintro ⟨rfl, time⟩
      exact ⟨h + d, (addTime_eq_ok_iff h d _).mpr ⟨rfl, time h rfl⟩, rfl⟩

namespace Shift

theorem apply_eq_ok_iff (h : Shift) (r req : Request) : h.apply r = .ok req ↔
    req = { r with time := r.time - h.base, next := r.next.map (· + h.offset) } ∧
      IsTime (r.time - h.base) ∧ ∀ next, r.next = some next → IsTime (next + h.offset) := by
  rw [apply, bind_eq_ok_iff]
  simp only [bind_eq_ok_iff, subTime_eq_ok_iff, addTime_eq_ok_iff_shift]
  constructor
  · rintro ⟨time, ⟨rfl, inside⟩, next, ⟨rfl, hints⟩, e⟩
    cases e
    exact ⟨rfl, inside, hints⟩
  · rintro ⟨rfl, inside, hints⟩
    exact ⟨_, ⟨rfl, inside⟩, _, ⟨rfl, hints⟩, rfl⟩

theorem settles_apply {t : Tolerance} (h : Shift) (r : Request) :
    Settles t (h.apply r) fun _ => True := by
  apply settles_bind (settles_subTime r.time h.base)
  intro time _
  cases r.next with
  | none => exact settles_pure trivial
  | some next =>
    have sum : Settles t (some <$> addTime next h.offset) fun _ => True :=
      settles_map ((settles_addTime next h.offset).mono fun _ _ => trivial)
    exact settles_bind sum fun _ _ => settles_pure trivial

end Shift

def missedBytes : List Request → List Bool → Nat
  | r :: rs, hit :: hits => (if hit then 0 else r.size) + missedBytes rs hits
  | _, _ => 0

theorem missedBytes_append {rs more : List Request} {hits others : List Bool}
    (same : hits.length = rs.length) : missedBytes (rs ++ more) (hits ++ others) =
      missedBytes rs hits + missedBytes more others := by
  induction rs generalizing hits with
  | nil =>
    cases hits with
    | nil => simp [missedBytes]
    | cons hit hits => simp at same
  | cons r rs ih =>
    cases hits with
    | nil => simp at same
    | cons hit hits =>
      have rest := @ih hits (by simpa using same)
      simp only [List.cons_append, missedBytes, rest]
      omega

theorem missedBytes_le (rs : List Request) (hits : List Bool) :
    missedBytes rs hits ≤ (rs.map (·.size)).sum := by
  induction rs generalizing hits with
  | nil => simp [missedBytes]
  | cons r rs ih =>
    cases hits with
    | nil => simp [missedBytes]
    | cons hit hits =>
      have rest := ih hits
      simp only [missedBytes, List.map_cons, List.sum_cons]
      split <;> omega

namespace Counters

def after (n : Counters) (rs : List Request) (hits : List Bool) : Counters :=
  { n with
    requests := n.requests + rs.length
    misses := n.misses + hits.count false
    requestBytes := n.requestBytes + (rs.map (·.size)).sum
    missBytes := n.missBytes + missedBytes rs hits }

theorem after_cons (n : Counters) (r : Request) (rs : List Request) (hit : Bool) (hits : List Bool) :
    n.after (r :: rs) (hit :: hits) = (n.after [r] [hit]).after rs hits := by
  simp only [after, missedBytes, List.length_cons, List.length_nil, List.map_cons, List.map_nil,
    List.sum_cons, List.sum_nil, List.count_cons, List.count_nil, mk.injEq, and_true]
  omega

theorem count_eq_ok_iff {n m : Counters} {r : Request} {hit : Bool} (less : n.missBytes ≤ n.requestBytes) :
    n.count r hit = .ok m ↔ m = n.after [r] [hit] ∧ IsWord m.requestBytes := by
  rw [count, bind_eq_ok_iff]
  cases hit with
  | true =>
    simp only [addWord_eq_ok_iff, if_true]
    constructor
    · rintro ⟨bytes, ⟨rfl, word⟩, e⟩
      cases e
      exact ⟨rfl, word⟩
    · rintro ⟨rfl, word⟩
      exact ⟨_, ⟨rfl, word⟩, rfl⟩
  | false =>
    simp only [addWord_eq_ok_iff, bind_eq_ok_iff, if_neg Bool.false_ne_true]
    constructor
    · rintro ⟨bytes, ⟨rfl, word⟩, missed, ⟨rfl, -⟩, e⟩
      cases e
      exact ⟨rfl, word⟩
    · rintro ⟨rfl, word⟩
      refine ⟨_, ⟨rfl, word⟩, _, ⟨rfl, ?_⟩, rfl⟩
      have sum : IsWord (n.requestBytes + r.size) := by simpa [after] using word
      unfold IsWord at sum ⊢
      omega

theorem settles_count {t : Tolerance} (n : Counters) (r : Request) (hit : Bool) :
    Settles t (n.count r hit) fun _ => True := by
  apply settles_bind (settles_addWord n.requestBytes r.size)
  intro bytes _
  split
  · exact settles_pure trivial
  · exact settles_bind (settles_addWord n.missBytes r.size) fun _ _ => settles_pure trivial

end Counters

section
variable {σ : Type} [EvictionPolicy σ]

/-- Serves the shifted requests of a trace and answers which of them hit. -/
def attend (shift : Shift) : List Request → σ → Checked (List Bool × σ)
  | [], s => pure ([], s)
  | r :: rs, s => do
    let r ← shift.apply r
    let (hit, s) ← serve s r
    let (hits, s) ← attend shift rs s
    pure (hit :: hits, s)

theorem attend_nil_eq_ok_iff (shift : Shift) (s d : σ) (hits : List Bool) :
    attend shift [] s = .ok (hits, d) ↔ hits = [] ∧ d = s := by
  constructor
  · intro e
    cases e
    exact ⟨rfl, rfl⟩
  · rintro ⟨rfl, rfl⟩
    rfl

theorem attend_cons_eq_ok_iff (shift : Shift) (r : Request) (rs : List Request) (s d : σ)
    (hits : List Bool) : attend shift (r :: rs) s = .ok (hits, d) ↔ ∃ req hit b rest,
      shift.apply r = .ok req ∧ serve s req = .ok (hit, b) ∧ attend shift rs b = .ok (rest, d) ∧
      hits = hit :: rest := by
  rw [attend, bind_eq_ok_iff]
  simp only [bind_eq_ok_iff, Prod.exists]
  constructor
  · rintro ⟨req, applied, hit, b, served, rest, d', attended, e⟩
    cases e
    exact ⟨req, hit, b, rest, applied, served, attended, rfl⟩
  · rintro ⟨req, hit, b, rest, applied, served, attended, rfl⟩
    exact ⟨req, applied, hit, b, served, rest, d, attended, rfl⟩

theorem attend_append_eq_ok_iff (shift : Shift) (rs more : List Request) (s d : σ)
    (hits : List Bool) : attend shift (rs ++ more) s = .ok (hits, d) ↔ ∃ first b second,
      attend shift rs s = .ok (first, b) ∧ attend shift more b = .ok (second, d) ∧
      hits = first ++ second := by
  induction rs generalizing s hits with
  | nil =>
    simp only [List.nil_append, attend_nil_eq_ok_iff]
    constructor
    · intro e
      exact ⟨[], s, hits, ⟨rfl, rfl⟩, e, rfl⟩
    · rintro ⟨first, b, second, ⟨rfl, rfl⟩, e, rfl⟩
      exact e
  | cons r rs ih =>
    simp only [List.cons_append, attend_cons_eq_ok_iff, ih]
    constructor
    · rintro ⟨req, hit, a, rest, applied, served, ⟨first, b, second, left, right, rfl⟩, rfl⟩
      exact ⟨hit :: first, b, second, ⟨req, hit, a, first, applied, served, left, rfl⟩, right, rfl⟩
    · rintro ⟨_, b, second, ⟨req, hit, a, first, applied, served, left, rfl⟩, right, rfl⟩
      exact ⟨req, hit, a, first ++ second, applied, served, ⟨first, b, second, left, right, rfl⟩, rfl⟩

theorem length_of_attend {shift : Shift} {rs : List Request} {s d : σ} {hits : List Bool}
    (e : attend shift rs s = .ok (hits, d)) : hits.length = rs.length := by
  induction rs generalizing s hits with
  | nil =>
    obtain ⟨rfl, -⟩ := (attend_nil_eq_ok_iff ..).mp e
    rfl
  | cons r rs ih =>
    obtain ⟨req, hit, b, rest, -, -, attended, rfl⟩ := (attend_cons_eq_ok_iff ..).mp e
    simp [ih attended]

/-- Warming up is serving without a look at the answers. -/
theorem preheat_eq_ok_iff (shift : Shift) (rs : List Request) (s d : σ) :
    preheat shift rs s = .ok d ↔ ∃ hits, attend shift rs s = .ok (hits, d) := by
  induction rs generalizing s with
  | nil =>
    simp only [attend_nil_eq_ok_iff]
    constructor
    · intro e
      cases e
      exact ⟨[], rfl, rfl⟩
    · rintro ⟨-, -, rfl⟩
      rfl
  | cons r rs ih =>
    rw [preheat, bind_eq_ok_iff]
    simp only [bind_eq_ok_iff, Prod.exists, attend_cons_eq_ok_iff, ih]
    constructor
    · rintro ⟨req, applied, hit, b, served, rest, attended⟩
      exact ⟨hit :: rest, req, hit, b, rest, applied, served, attended, rfl⟩
    · rintro ⟨_, req, hit, b, rest, applied, served, attended, rfl⟩
      exact ⟨req, applied, hit, b, served, rest, attended⟩

/-- The warmup takes no request of the trace itself. -/
def Warmup.Apart (w : Warmup) : Prop := ∀ length position r, w.covers length position r = false

theorem Warmup.apart_none : Warmup.none.Apart := fun _ _ _ => rfl

theorem Warmup.apart_trace (rs : List Request) : (Warmup.trace rs).Apart := fun _ _ _ => rfl

theorem Warmup.Apart.replay_cons {w : Warmup} (apart : w.Apart) (shift : Shift) (length position : Nat)
    (r : Request) (rs : List Request) (s : σ) (n : Counters) :
    replay w shift length position (r :: rs) s n = (do
      let req ← shift.apply r
      let (hit, s) ← serve s req
      let n ← n.count req hit
      replay w shift length (position + 1) rs s n) := by
  rw [replay]
  apply bind_congr
  intro req
  apply bind_congr
  intro p
  rw [apart]
  rfl

theorem replay_eq_ok_iff {w : Warmup} (apart : w.Apart) (shift : Shift) (length position : Nat)
    (rs : List Request) (s d : σ) {n : Counters} (m : Counters) (less : n.missBytes ≤ n.requestBytes)
    (word : IsWord n.requestBytes) : replay w shift length position rs s n = .ok (d, m) ↔
      ∃ hits, attend shift rs s = .ok (hits, d) ∧ m = n.after rs hits ∧ IsWord m.requestBytes := by
  induction rs generalizing position s n with
  | nil =>
    simp only [attend_nil_eq_ok_iff]
    constructor
    · intro e
      cases e
      exact ⟨[], ⟨rfl, rfl⟩, rfl, word⟩
    · rintro ⟨_, ⟨rfl, rfl⟩, rfl, -⟩
      rfl
  | cons r rs ih =>
    rw [apart.replay_cons, bind_eq_ok_iff]
    simp only [bind_eq_ok_iff, Prod.exists, attend_cons_eq_ok_iff, Counters.count_eq_ok_iff less]
    have sized : ∀ req hit, shift.apply r = .ok req → n.after [req] [hit] = n.after [r] [hit] := by
      intro req hit applied
      obtain ⟨rfl, -⟩ := (shift.apply_eq_ok_iff r req).mp applied
      rfl
    have still : ∀ hit, (n.after [r] [hit]).missBytes ≤ (n.after [r] [hit]).requestBytes := by
      intro hit
      have one := missedBytes_le [r] [hit]
      change n.missBytes + missedBytes [r] [hit] ≤ n.requestBytes + ([r].map (·.size)).sum
      omega
    constructor
    · rintro ⟨req, applied, hit, b, served, k, ⟨rfl, fine⟩, rest⟩
      rw [sized req hit applied] at rest fine
      obtain ⟨hits, attended, rfl, inside⟩ := (ih _ b (still hit) fine).mp rest
      refine ⟨hit :: hits, ⟨req, hit, b, hits, applied, served, attended, rfl⟩, ?_, inside⟩
      exact (n.after_cons r rs hit hits).symm
    · rintro ⟨_, ⟨req, hit, b, hits, applied, served, attended, rfl⟩, rfl, inside⟩
      have split := n.after_cons r rs hit hits
      have fine : IsWord (n.after [r] [hit]).requestBytes := by
        rw [split] at inside
        exact inside.of_le (Nat.le_add_right ..)
      refine ⟨req, applied, hit, b, served, _, ⟨rfl, ?_⟩, ?_⟩
      · rw [sized req hit applied]
        exact fine
      · rw [sized req hit applied]
        exact (ih _ b (still hit) fine).mpr ⟨hits, attended, split, inside⟩

theorem replay_append (w : Warmup) (shift : Shift) (length position : Nat) (rs more : List Request)
    (s : σ) (n : Counters) : replay w shift length position (rs ++ more) s n = (do
      let (s, n) ← replay w shift length position rs s n
      replay w shift length (position + rs.length) more s n) := by
  induction rs generalizing position s n with
  | nil => rfl
  | cons r rs ih =>
    have next : position + (r :: rs).length = position + 1 + rs.length := by
      simp only [List.length_cons]
      omega
    simp only [List.cons_append, replay, ih, bind_assoc, next]
    apply bind_congr
    intro req
    apply bind_congr
    intro p
    split <;> simp only [bind_assoc]

def Statistics.ofAnswers (d : σ) (warmed expired : Nat) (rs : List Request) (hits : List Bool) :
    Statistics where
  policy := name d
  capacity := (account d).capacity
  requests := rs.length
  misses := hits.count false
  requestBytes := (rs.map (·.size)).sum
  missBytes := missedBytes rs hits
  warmupRequests := warmed
  expired := (account d).expired - expired
  objects := (account d).objects
  occupied := (account d).occupied

/-- A simulation answers if every request is served and the sums stay in range. -/
theorem simulate_eq_ok_iff {w : Warmup} (apart : w.Apart) (rs : List Request) (s d : σ)
    (stats : Statistics) : simulate rs s w = .ok (stats, d) ↔ ∃ warm b hits,
      attend { w.shift rs with offset := 0 } w.preamble s = .ok (warm, b) ∧
      attend (w.shift rs) rs b = .ok (hits, d) ∧ IsWord (rs.map (·.size)).sum ∧
      (account b).expired ≤ (account d).expired ∧
      stats = .ofAnswers d w.preamble.length (account b).expired rs hits := by
  rw [simulate, bind_eq_ok_iff]
  simp only [bind_eq_ok_iff, Prod.exists, preheat_eq_ok_iff, subWord_eq_ok_iff]
  have zero : IsWord 0 := by decide
  constructor
  · rintro ⟨b, ⟨warm, warmed⟩, d', m, replayed, expired, sum, e⟩
    obtain ⟨hits, attended, rfl, word⟩ :=
      (replay_eq_ok_iff apart (w.shift rs) rs.length 0 rs b _ m (Nat.le_refl 0) zero).mp replayed
    cases e
    change (account d).expired = (account b).expired + expired at sum
    refine ⟨warm, b, hits, warmed, attended, ?_, by omega, ?_⟩
    · simpa [Counters.after] using word
    · simp [Statistics.ofAnswers, Counters.after, sum]
  · rintro ⟨warm, b, hits, warmed, attended, word, grown, rfl⟩
    refine ⟨b, ⟨warm, warmed⟩, d, _, (replay_eq_ok_iff apart (w.shift rs) rs.length 0 rs b d _
      (Nat.le_refl 0) zero).mpr ⟨hits, attended, rfl, ?_⟩, (account d).expired - (account b).expired, ?_, ?_⟩
    · simpa [Counters.after] using word
    · change (account d).expired = (account b).expired + _
      omega
    · simp [Statistics.ofAnswers, Counters.after]
      rfl

section
variable {t : Tolerance} {inv : σ → Prop}
  (keeps : ∀ (s : σ) (req : Request), inv s → Settles t (serve s req) fun p => inv p.2)
include keeps

theorem settles_preheat_of_serve (shift : Shift) (rs : List Request) {s : σ} (h : inv s) :
    Settles t (preheat shift rs s) inv := by
  induction rs generalizing s with
  | nil => exact settles_pure h
  | cons r rs ih =>
    apply settles_bind (shift.settles_apply r)
    intro req _
    exact settles_bind (keeps s req h) fun p hp => ih hp

theorem settles_replay_of_serve (w : Warmup) (shift : Shift) (length position : Nat) (rs : List Request)
    {s : σ} (n : Counters) (h : inv s) :
    Settles t (replay w shift length position rs s n) fun p => inv p.1 := by
  induction rs generalizing position s n with
  | nil => exact settles_pure h
  | cons r rs ih =>
    apply settles_bind (shift.settles_apply r)
    intro req _
    apply settles_bind (keeps s req h)
    intro p hp
    dsimp only
    split
    · exact ih _ _ hp
    · exact settles_bind (n.settles_count req p.1) fun n _ => ih _ n hp

theorem settles_simulate_of_serve (w : Warmup) (rs : List Request) {s : σ} (h : inv s) :
    Settles t (simulate rs s w) fun p => inv p.2 ∧ p.1.capacity = (account p.2).capacity := by
  apply settles_bind (settles_preheat_of_serve keeps _ w.preamble h)
  intro b hb
  apply settles_bind (settles_replay_of_serve keeps w _ rs.length 0 rs _ hb)
  intro q hq
  exact settles_bind (settles_subWord _ _) fun expired _ => settles_pure ⟨hq, rfl⟩

end

namespace EvictionPolicy.Dependable
variable {t : Tolerance} {caches absent : σ → Nat → Prop} {sound : σ → Prop}
  (d : Dependable t caches absent sound)
include d

theorem settles_preheat (shift : Shift) (rs : List Request) (s : σ) (hs : sound s) :
    Settles t (preheat shift rs s) fun b =>
      sound b ∧ (account b).requests = (account s).requests + rs.length := by
  induction rs generalizing s with
  | nil => exact settles_pure ⟨hs, rfl⟩
  | cons r rs ih =>
    apply settles_bind (shift.settles_apply r)
    intro req _
    apply settles_bind (d.settles_serve s req hs)
    rintro p ⟨hp, -, -, requests, -⟩
    apply (ih p.2 hp).mono
    rintro b ⟨hb, counted⟩
    refine ⟨hb, ?_⟩
    rw [counted, requests, List.length_cons]
    omega

theorem settles_replay (w : Warmup) (shift : Shift) (length position : Nat) (rs : List Request)
    (s : σ) (n : Counters) (hs : sound s) : Settles t (replay w shift length position rs s n)
      fun p => sound p.1 ∧ (account p.1).requests = (account s).requests + rs.length := by
  induction rs generalizing position s n with
  | nil => exact settles_pure ⟨hs, rfl⟩
  | cons r rs ih =>
    apply settles_bind (shift.settles_apply r)
    intro req _
    apply settles_bind (d.settles_serve s req hs)
    rintro p ⟨hp, -, -, requests, -⟩
    have rest : ∀ n, Settles t (replay w shift length (position + 1) rs p.2 n) fun q =>
        sound q.1 ∧ (account q.1).requests = (account s).requests + (r :: rs).length := by
      intro n
      apply (ih (position + 1) p.2 n hp).mono
      rintro q ⟨hq, counted⟩
      refine ⟨hq, ?_⟩
      rw [counted, requests, List.length_cons]
      omega
    dsimp only
    split
    · exact rest _
    · exact settles_bind (n.settles_count req p.1) fun n _ => rest n

theorem settles_simulate (w : Warmup) (rs : List Request) (s : σ) (hs : sound s) :
    Settles t (simulate rs s w) fun p => sound p.2 :=
  (settles_simulate_of_serve (fun s req h => (d.settles_serve s req h).mono fun _ served => served.1) w rs
    hs).mono fun _ => And.left

end EvictionPolicy.Dependable

end
end CacheReplay
