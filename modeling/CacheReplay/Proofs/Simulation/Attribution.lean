import Mathlib
import CacheReplay.Proofs.Expiry
import CacheReplay.Proofs.Simulation.Replay

set_option autoImplicit false

namespace CacheReplay
open EvictionPolicy

/-- A request as it was served. -/
structure Visit where
  request : Request
  warming : Bool
  hit : Bool
  found : Outcome

namespace Visit

def counted (log : List Visit) : List Visit := log.filter fun v => !v.warming

/-- What comes behind the last request of the warmup. -/
def late (log : List Visit) : List Visit := log.rtakeWhile fun v => !v.warming

/-- What comes up to the last request of the warmup. -/
def early (log : List Visit) : List Visit := log.rdropWhile fun v => !v.warming

def bytes (log : List Visit) : Nat := (log.map (·.request.size)).sum

def missed (log : List Visit) : List Visit := log.filter fun v => !v.hit

def expired (log : List Visit) : Nat := log.countP fun v => v.found = .expired

theorem counted_append (log more : List Visit) : counted (log ++ more) = counted log ++ counted more :=
  List.filter_append ..

theorem missed_append (log more : List Visit) : missed (log ++ more) = missed log ++ missed more :=
  List.filter_append ..

theorem bytes_append (log more : List Visit) : bytes (log ++ more) = bytes log + bytes more := by
  simp [bytes]

theorem bytes_counted_le (log more : List Visit) :
    bytes (counted log) ≤ bytes (counted (log ++ more)) := by
  rw [counted_append, bytes_append]
  exact Nat.le_add_right ..

theorem expired_append (log more : List Visit) :
    expired (log ++ more) = expired log + expired more :=
  List.countP_append ..

theorem bytes_missed_le (log : List Visit) : bytes (missed log) ≤ bytes log :=
  ((List.filter_sublist).map _).sum_le_sum fun _ _ => Nat.zero_le _

theorem early_append_late (log : List Visit) : early log ++ late log = log :=
  List.rdropWhile_append_rtakeWhile

theorem early_concat_counted {v : Visit} (hv : v.warming = false) (log : List Visit) :
    early (log ++ [v]) = early log :=
  List.rdropWhile_concat_pos _ _ _ (by simp [hv])

theorem early_concat_warming {v : Visit} (hv : v.warming = true) (log : List Visit) :
    early (log ++ [v]) = log ++ [v] :=
  List.rdropWhile_concat_neg _ _ _ (by simp [hv])

theorem counted_late (log : List Visit) : counted (late log) = late log :=
  List.filter_eq_self.2 fun _ hv => List.mem_rtakeWhile_imp (p := fun v : Visit => !v.warming) hv

theorem length_counted_add (log : List Visit) :
    log.countP (·.warming) + (counted log).length = log.length := by
  rw [counted, ← List.countP_eq_length_filter, List.length_eq_countP_add_countP (·.warming)]
  simp

/-- Counted requests found their objects expired late, or early and in vain. -/
theorem expired_counted (log : List Visit) :
    expired (counted log) = expired (late log) + expired (counted (early log)) := by
  conv_lhs => rw [← early_append_late log, counted_append, expired_append, counted_late]
  exact Nat.add_comm ..

theorem early_sublist (log : List Visit) : (early log).Sublist log :=
  List.IsPrefix.sublist ( List.rdropWhile_prefix ..)

theorem warming_getLast_early {log : List Visit} (h : early log ≠ []) :
    ((early log).getLast h).warming = true := by
  have kept := List.rdropWhile_last_not (fun v : Visit => !v.warming) log h
  rw [Bool.not_eq_true', Bool.not_eq_false] at kept
  exact kept

theorem counted_early_eq_nil {log : List Visit}
    (first : log.Pairwise fun u v => v.warming = true → u.warming = true) : counted (early log) = [] := by
  have sorted := first.sublist (early_sublist log)
  refine List.filter_eq_nil_iff.2 fun u hu => ?_
  have hne : early log ≠ [] := List.ne_nil_of_mem hu
  have last := warming_getLast_early hne
  have split := List.dropLast_append_getLast hne
  rw [← split, List.mem_append, List.mem_singleton] at hu
  rw [← split, List.pairwise_append] at sorted
  rcases hu with hu | rfl
  · simp [sorted.2.2 u hu _ (List.mem_singleton.2 rfl) last]
  · simp [last]

end Visit

section
variable {σ : Type} [EvictionPolicy σ]

def visits (w : Warmup) (shift : Shift) (length : Nat) :
    Nat → List Request → σ → Checked (List Visit × σ)
  | _, [], s => pure ([], s)
  | position, r :: rs, s => do
    let req ← shift.apply r
    let (hit, b) ← serve s req
    let (log, d) ← visits w shift length (position + 1) rs b
    pure (⟨req, w.covers length position req, hit, finding s req⟩ :: log, d)

variable {w : Warmup} {shift : Shift} {length position : Nat} {s d : σ}

theorem visits_nil_eq_ok_iff {log : List Visit} :
    visits w shift length position [] s = .ok (log, d) ↔ log = [] ∧ d = s := by
  constructor
  · intro e
    cases e
    exact ⟨rfl, rfl⟩
  · rintro ⟨rfl, rfl⟩
    rfl

theorem visits_cons_eq_ok_iff {r : Request} {rs : List Request} {log : List Visit} :
    visits w shift length position (r :: rs) s = .ok (log, d) ↔ ∃ req hit b rest,
      shift.apply r = .ok req ∧ serve s req = .ok (hit, b) ∧
      visits w shift length (position + 1) rs b = .ok (rest, d) ∧
      log = ⟨req, w.covers length position req, hit, finding s req⟩ :: rest := by
  rw [visits, bind_eq_ok_iff]
  simp only [bind_eq_ok_iff, Prod.exists]
  constructor
  · rintro ⟨req, applied, hit, b, served, rest, d', visited, e⟩
    cases e
    exact ⟨req, hit, b, rest, applied, served, visited, rfl⟩
  · rintro ⟨req, hit, b, rest, applied, served, visited, rfl⟩
    exact ⟨req, applied, hit, b, served, rest, d, visited, rfl⟩

theorem length_of_visits {rs : List Request} {log : List Visit}
    (e : visits w shift length position rs s = .ok (log, d)) : log.length = rs.length := by
  induction rs generalizing position s log with
  | nil =>
    obtain ⟨rfl, -⟩ := visits_nil_eq_ok_iff.1 e
    rfl
  | cons r rs ih =>
    obtain ⟨req, hit, b, rest, -, -, visited, rfl⟩ := visits_cons_eq_ok_iff.1 e
    simp [ih visited]

theorem CountsUp.expired_of_serve (counts : CountsUp σ) {req : Request} {hit : Bool}
    (e : EvictionPolicy.serve s req = .ok (hit, d)) (warming : Bool) : (account d).expired =
      (account s).expired + Visit.expired [⟨req, warming, hit, finding s req⟩] := by
  have one := counts.serve_found s req
  rw [e] at one
  refine Eq.trans one (congrArg _ ?_)
  cases finding s req <;> rfl

theorem CountsUp.expired_of_visits (counts : CountsUp σ) {rs : List Request} {log : List Visit}
    (e : visits w shift length position rs s = .ok (log, d)) :
    (account d).expired = (account s).expired + Visit.expired log := by
  induction rs generalizing position s log with
  | nil =>
    obtain ⟨rfl, rfl⟩ := visits_nil_eq_ok_iff.1 e
    rfl
  | cons r rs ih =>
    obtain ⟨req, hit, b, rest, -, served, visited, rfl⟩ := visits_cons_eq_ok_iff.1 e
    rw [ih visited, counts.expired_of_serve served, Nat.add_assoc, ← Visit.expired_append]
    rfl

namespace Counters
open Visit

def ofVisits (warmed before : Nat) (log : List Visit) : Counters where
  requests := (counted log).length
  misses := (missed (counted log)).length
  requestBytes := bytes (counted log)
  missBytes := bytes (missed (counted log))
  warmupRequests := warmed + log.countP (·.warming)
  expiredBefore := before + expired (early log)

theorem count_ofVisits_eq_ok_iff {warmed before : Nat} {log : List Visit} {v : Visit}
    (hv : v.warming = false) {m : Counters} :
    (ofVisits warmed before log).count v.request v.hit = .ok m ↔
      m = ofVisits warmed before (log ++ [v]) ∧ IsWord m.requestBytes := by
  have less : (ofVisits warmed before log).missBytes ≤ (ofVisits warmed before log).requestBytes :=
    bytes_missed_le _
  have next : (ofVisits warmed before log).after [v.request] [v.hit] =
      ofVisits warmed before (log ++ [v]) := by
    have one : counted [v] = [v] := by simp [counted, hv]
    simp only [after, ofVisits, counted_append, missed_append, bytes_append, one,
      early_concat_counted hv]
    cases hhit : v.hit <;> simp [missed, bytes, missedBytes, hv, hhit]
  rw [count_eq_ok_iff less, next]

theorem pass_ofVisits {warmed before : Nat} {log : List Visit} {v : Visit}
    (hv : v.warming = true) :
    (ofVisits warmed before log).pass (before + expired (log ++ [v])) =
      ofVisits warmed before (log ++ [v]) := by
  have none : counted [v] = [] := by simp [counted, hv]
  simp [pass, ofVisits, counted_append, none, early_concat_warming hv, hv, Nat.add_assoc]

theorem enter_eq_ok_iff {warmed before : Nat} {log : List Visit} (v : Visit)
    (word : IsWord (bytes (counted log))) {m : Counters} :
    (if v.warming then pure ((ofVisits warmed before log).pass (before + expired (log ++ [v])))
      else (ofVisits warmed before log).count v.request v.hit) = .ok m ↔
      m = ofVisits warmed before (log ++ [v]) ∧ IsWord m.requestBytes := by
  cases hv : v.warming with
  | true =>
    rw [if_pos rfl, pass_ofVisits hv]
    constructor
    · intro e
      cases e
      refine ⟨rfl, ?_⟩
      have none : counted [v] = [] := by simp [counted, hv]
      rw [ofVisits, counted_append, none, List.append_nil]
      exact word
    · rintro ⟨rfl, -⟩
      rfl
  | false =>
    rw [if_neg Bool.false_ne_true]
    exact count_ofVisits_eq_ok_iff hv

end Counters

theorem replay_cons (r : Request) (rs : List Request) (n : Counters) :
    replay w shift length position (r :: rs) s n = (do
      let req ← shift.apply r
      let (hit, b) ← serve s req
      (if w.covers length position req then pure (n.pass (account b).expired) else n.count req hit) >>=
        replay w shift length (position + 1) rs b) := by
  rw [replay]
  apply bind_congr
  intro req
  apply bind_congr
  intro p
  dsimp only
  split <;> rfl

theorem CountsUp.replay_eq_ok_iff (counts : CountsUp σ) (rs : List Request) {warmed before : Nat}
    (past : List Visit) (found : (account s).expired = before + Visit.expired past)
    (word : IsWord (Visit.bytes (Visit.counted past))) {m : Counters} :
    replay w shift length position rs s (.ofVisits warmed before past) = .ok (d, m) ↔
      ∃ log, visits w shift length position rs s = .ok (log, d) ∧
        m = .ofVisits warmed before (past ++ log) ∧ IsWord m.requestBytes := by
  induction rs generalizing position s past with
  | nil =>
    simp only [visits_nil_eq_ok_iff]
    constructor
    · intro e
      cases e
      exact ⟨[], ⟨rfl, rfl⟩, by rw [List.append_nil], word⟩
    · rintro ⟨_, ⟨rfl, rfl⟩, rfl, -⟩
      rw [List.append_nil]
      rfl
  | cons r rs ih =>
    rw [replay_cons, bind_eq_ok_iff]
    simp only [bind_eq_ok_iff, Prod.exists, visits_cons_eq_ok_iff]
    -- The state after one more request is the one that the longer log tells of.
    have step : ∀ {req hit b}, EvictionPolicy.serve s req = .ok (hit, b) → (account b).expired =
        before + Visit.expired (past ++ [⟨req, w.covers length position req, hit, finding s req⟩]) := by
      intro req hit b served
      rw [counts.expired_of_serve served, found, Visit.expired_append, Nat.add_assoc]
    constructor
    · rintro ⟨req, applied, hit, b, served, n, entered, rest⟩
      rw [step served] at entered
      obtain ⟨rfl, inside⟩ := (Counters.enter_eq_ok_iff ⟨req, _, hit, finding s req⟩ word).1 entered
      obtain ⟨log, visited, rfl, whole⟩ := (ih _ (step served) inside).1 rest
      exact ⟨_, ⟨req, hit, b, log, applied, served, visited, rfl⟩, by simp, whole⟩
    · rintro ⟨_, ⟨req, hit, b, log, applied, served, visited, rfl⟩, same, whole⟩
      rw [List.append_cons past] at same
      have inside : IsWord (Visit.bytes (Visit.counted
          (past ++ [⟨req, w.covers length position req, hit, finding s req⟩]))) := by
        rw [same] at whole
        exact whole.of_le (Visit.bytes_counted_le _ log)
      refine ⟨req, applied, hit, b, served, _, ?_, (ih _ (step served) inside).2
        ⟨log, visited, same, whole⟩⟩
      rw [step served]
      exact (Counters.enter_eq_ok_iff ⟨req, _, hit, finding s req⟩ word).2 ⟨rfl, inside⟩

def Statistics.ofVisits (d : σ) (warmed : Nat) (log : List Visit) : Statistics where
  policy := name d
  capacity := (account d).capacity
  requests := (Visit.counted log).length
  misses := (Visit.missed (Visit.counted log)).length
  requestBytes := Visit.bytes (Visit.counted log)
  missBytes := Visit.bytes (Visit.missed (Visit.counted log))
  warmupRequests := warmed + log.countP (·.warming)
  expired := Visit.expired (Visit.late log)
  objects := (account d).objects
  occupied := (account d).occupied

theorem CountsUp.simulate_eq_ok_iff (counts : CountsUp σ) (w : Warmup) (rs : List Request) (s d : σ)
    (stats : Statistics) : simulate rs s w = .ok (stats, d) ↔ ∃ b log,
      preheat { w.shift rs with offset := 0 } w.preamble s = .ok b ∧
      visits w (w.shift rs) rs.length 0 rs b = .ok (log, d) ∧
      IsWord (Visit.bytes (Visit.counted log)) ∧ stats = .ofVisits d w.preamble.length log := by
  have zero : IsWord (Visit.bytes (Visit.counted [])) := by decide
  have replayed : ∀ b d m, replay w (w.shift rs) rs.length 0 rs b
      ⟨0, 0, 0, 0, w.preamble.length, (account b).expired⟩ = .ok (d, m) ↔
        ∃ log, visits w (w.shift rs) rs.length 0 rs b = .ok (log, d) ∧
          m = .ofVisits w.preamble.length (account b).expired log ∧ IsWord m.requestBytes :=
    fun b d m => counts.replay_eq_ok_iff rs [] rfl zero
  -- What was found expired after the snapshot is what was found behind the warmup.
  have rest : ∀ {b d : σ} {log}, visits w (w.shift rs) rs.length 0 rs b = .ok (log, d) →
      (account d).expired = (account b).expired + Visit.expired (Visit.early log) +
        Visit.expired (Visit.late log) := by
    intro b log d visited
    rw [counts.expired_of_visits visited, Nat.add_assoc, ← Visit.expired_append,
      Visit.early_append_late]
  rw [simulate, bind_eq_ok_iff]
  simp only [bind_eq_ok_iff, Prod.exists, replayed, subWord_eq_ok_iff]
  constructor
  · rintro ⟨b, warmed, d', m, ⟨log, visited, rfl, word⟩, expired, sum, e⟩
    cases e
    have late : expired = Visit.expired (Visit.late log) :=
      Nat.add_left_cancel (sum.symm.trans (rest visited))
    exact ⟨b, log, warmed, visited, word, by rw [late]; rfl⟩
  · rintro ⟨b, log, warmed, visited, word, rfl⟩
    exact ⟨b, warmed, d, _, ⟨log, visited, rfl, word⟩, _, rest visited, rfl⟩

theorem exists_of_visits {rs : List Request} {log : List Visit}
    (e : visits w shift length position rs s = .ok (log, d)) (i : Nat) (hi : i < log.length) :
    ∃ r req, rs[i]? = some r ∧ shift.apply r = .ok req ∧
      log[i].warming = w.covers length (position + i) req := by
  induction rs generalizing position s log i with
  | nil =>
    obtain ⟨rfl, -⟩ := visits_nil_eq_ok_iff.1 e
    simp at hi
  | cons r rs ih =>
    obtain ⟨req, hit, b, rest, applied, -, visited, rfl⟩ := visits_cons_eq_ok_iff.1 e
    cases i with
    | zero => exact ⟨r, req, rfl, applied, rfl⟩
    | succ i =>
      obtain ⟨r', req', same, applied', warming⟩ := ih visited i (Nat.lt_of_succ_lt_succ hi)
      refine ⟨r', req', same, applied', ?_⟩
      rw [List.getElem_cons_succ, warming, Nat.add_right_comm]
      rfl

/-- Only times out of order let a request of the warmup come behind one that is counted. -/
theorem warming_first_of_visits {rs : List Request} {log : List Visit}
    (e : visits w shift length position rs s = .ok (log, d))
    (ordered : (∀ n, w ≠ .seconds n) ∨ rs.Pairwise fun r r' => r.time ≤ r'.time) :
    log.Pairwise fun u v => v.warming = true → u.warming = true := by
  rw [List.pairwise_iff_getElem]
  intro i j hi hj hij later
  obtain ⟨r, req, hr, applied, warming⟩ := exists_of_visits e i hi
  obtain ⟨r', req', hr', applied', warming'⟩ := exists_of_visits e j hj
  rw [warming'] at later
  rw [warming]
  cases w with
  | none => exact later
  | trace warm => exact later
  | fraction x =>
    simp only [Warmup.covers, decide_eq_true_eq] at later ⊢
    omega
  | seconds n =>
    obtain ⟨rfl, -⟩ := (shift.apply_eq_ok_iff r req).1 applied
    obtain ⟨rfl, -⟩ := (shift.apply_eq_ok_iff r' req').1 applied'
    have sorted := ordered.resolve_left fun h => h n rfl
    obtain ⟨_, rfl⟩ := List.getElem?_eq_some_iff.1 hr
    obtain ⟨_, rfl⟩ := List.getElem?_eq_some_iff.1 hr'
    have := List.pairwise_iff_getElem.1 sorted i j ‹_› ‹_› hij
    simp only [Warmup.covers, decide_eq_true_eq] at later ⊢
    omega

end

namespace AnyCache
open Regression
variable {μ : Type} [Regressor μ]

/--
A simulation on a fresh cache has a result unless arithmetic leaves its range or
the model faults. Each replayed request is of the warmup or counted; requests,
misses and their bytes are those of the counted ones. Of these, the expired ones
are reported that come behind the last request of the warmup: all of them, but
when times run backwards into the warmup of the first seconds.
-/
theorem simulate_attributes {c : AnyCache μ} (fresh : c.Fresh) (w : Warmup) (rs : List Request) :
    (Settles (.ofModel μ) (simulate rs c w) fun _ => True) ∧
    ∀ (d : AnyCache μ) (stats : Statistics), simulate rs c w = .ok (stats, d) ↔ ∃ b log,
      preheat { w.shift rs with offset := 0 } w.preamble c = .ok b ∧
      visits w (w.shift rs) rs.length 0 rs b = .ok (log, d) ∧
      IsWord (Visit.bytes (Visit.counted log)) ∧
      stats = .ofVisits d w.preamble.length log ∧
      stats.warmupRequests + stats.requests = w.preamble.length + rs.length ∧
      stats.expired + Visit.expired (Visit.counted (Visit.early log)) =
        Visit.expired (Visit.counted log) ∧
      (((∀ n, w ≠ .seconds n) ∨ rs.Pairwise fun r r' => r.time ≤ r'.time) →
        stats.expired = Visit.expired (Visit.counted log)) := by
  obtain ⟨sound, dependable, hc⟩ := fresh.dependable
  refine ⟨(dependable.settles_simulate w rs c hc).mono fun _ _ => trivial, fun d stats => ?_⟩
  rw [countsUp.simulate_eq_ok_iff w rs c d stats]
  constructor
  · rintro ⟨b, log, warmed, visited, word, rfl⟩
    have all := Visit.expired_counted log
    refine ⟨b, log, warmed, visited, word, rfl, ?_, all.symm, fun ordered => ?_⟩
    · change w.preamble.length + log.countP (·.warming) + (Visit.counted log).length = _
      rw [Nat.add_assoc, Visit.length_counted_add, length_of_visits visited]
    · rw [Visit.counted_early_eq_nil (warming_first_of_visits visited ordered)] at all
      exact all.symm
  · rintro ⟨b, log, warmed, visited, word, same, -⟩
    exact ⟨b, log, warmed, visited, word, same⟩

/-- The first and the last request come in the first five seconds, the second one does not. -/
def backwards : List Request := [⟨1, 1, 0, none, some 1⟩, .ofId 1 1 10, .ofId 2 1 0]

theorem exists_simulate_backwards : ∃ d,
    simulate backwards (.lru (.empty 10 0) : AnyCache Boosted) (.seconds 5) =
      .ok (⟨"LRU", 10, 1, 1, 1, 1, 2, 0, 2, 2⟩, d) := by
  have run : (simulate backwards (.lru (.empty 10 0) : AnyCache Boosted) (.seconds 5)).map (·.1) =
      .ok ⟨"LRU", 10, 1, 1, 1, 1, 2, 0, 2, 2⟩ := by cbv
  cases e : simulate backwards (.lru (.empty 10 0) : AnyCache Boosted) (.seconds 5) with
  | error f => rw [e] at run; cases run
  | ok p =>
    obtain ⟨stats, d⟩ := p
    rw [e] at run
    cases run
    exact ⟨d, rfl⟩

theorem simulate_attributes_backwards : (.lru (.empty 10 0) : AnyCache Boosted).Fresh ∧
    ∃ b log d, simulate backwards (.lru (.empty 10 0) : AnyCache Boosted) (.seconds 5) =
        .ok (⟨"LRU", 10, 1, 1, 1, 1, 2, 0, 2, 2⟩, d) ∧
      preheat ⟨0, 0⟩ [] (.lru (.empty 10 0)) = .ok b ∧
      visits (.seconds 5) ⟨0, 0⟩ 3 0 backwards b = .ok (log, d) ∧
      0 + Visit.expired (Visit.counted (Visit.early log)) = Visit.expired (Visit.counted log) := by
  obtain ⟨d, run⟩ := exists_simulate_backwards
  obtain ⟨b, log, warmed, visited, -, -, -, all, -⟩ :=
    ((simulate_attributes (.lru 10 0) (.seconds 5) backwards).2 d _).1 run
  exact ⟨.lru 10 0, b, log, d, run, warmed, visited, all⟩

/-- The request that found its object expired is counted, but the object is not. -/
theorem simulate_forgets : ∃ stats d log,
    simulate backwards (.lru (.empty 10 0) : AnyCache Boosted) (.seconds 5) = .ok (stats, d) ∧
    visits (.seconds 5) ⟨0, 0⟩ 3 0 backwards (.lru (.empty 10 0)) = .ok (log, d) ∧
    stats.expired = 0 ∧ Visit.expired (Visit.counted log) = 1 := by
  have found : (visits (.seconds 5) ⟨0, 0⟩ 3 0 backwards
      (.lru (.empty 10 0) : AnyCache Boosted)).map (fun p => Visit.expired (Visit.counted p.1)) =
        .ok 1 := by cbv
  obtain ⟨d, run⟩ := exists_simulate_backwards
  obtain ⟨b, log, warmed, visited, -, -⟩ :=
    (countsUp.simulate_eq_ok_iff (.seconds 5) backwards _ d _).1 run
  cases warmed
  change visits (.seconds 5) ⟨0, 0⟩ 3 0 backwards (.lru (.empty 10 0)) = .ok (log, d) at visited
  rw [visited] at found
  exact ⟨_, d, log, run, visited, rfl, Except.ok.inj found⟩

end AnyCache
end CacheReplay
