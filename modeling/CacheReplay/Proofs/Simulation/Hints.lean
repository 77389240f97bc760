import CacheReplay.Proofs.Admission
import CacheReplay.Proofs.Simulation.Replay

set_option autoImplicit false

namespace CacheReplay
open EvictionPolicy

/-- The request at position `j` is the first one behind position `k` for the same object. -/
structure NextUse (t : List Request) (k j : Nat) : Prop where
  inside : j < t.length
  behind : k < j
  same : t[j]?.map (·.id) = t[k]?.map (·.id)
  first : ∀ i, k < i → i < j → t[i]?.map (·.id) ≠ t[k]?.map (·.id)

theorem nextUse_iff {t : List Request} {k j : Nat} {r : Request} (hr : t[k]? = some r) :
    NextUse t k j ↔ ∃ i, (t.drop (k + 1)).findIdx? (·.id == r.id) = some i ∧ j = k + 1 + i := by
  simp only [List.findIdx?_eq_some_iff_getElem, List.getElem_drop, List.length_drop, beq_iff_eq]
  constructor
  · rintro ⟨inside, behind, same, first⟩
    refine ⟨j - (k + 1), ⟨by omega, ?_, fun i hi => ?_⟩, by omega⟩
    · have found : (t[k + 1 + (j - (k + 1))]?).map (·.id) = some r.id := by
        rw [show k + 1 + (j - (k + 1)) = j by omega, same, hr]
        rfl
      rw [List.getElem?_eq_getElem (by omega)] at found
      exact Option.some.inj found
    · have other := first (k + 1 + i) (by omega) (by omega)
      rw [hr, List.getElem?_eq_getElem (by omega)] at other
      exact fun e => other (congrArg some e)
  · rintro ⟨i, ⟨inside, same, first⟩, rfl⟩
    refine ⟨by omega, by omega, ?_, fun j hk hj => ?_⟩
    · rw [hr, List.getElem?_eq_getElem (by omega)]
      exact congrArg some same
    · have other := first (j - (k + 1)) (by omega)
      rw [hr, List.getElem?_eq_getElem (by omega)]
      intro e
      apply other
      have found := Option.some.inj e
      simpa only [show k + 1 + (j - (k + 1)) = j by omega] using found

section annotate

theorem annotateFrom_table (now : Int) (rs : List Request) (id : Nat) :
    (annotateFrom now rs).2[id]? = (rs.findIdx? (·.id == id)).map fun i : Nat => now + i := by
  induction rs generalizing now with
  | nil => simp [annotateFrom]
  | cons r rs ih =>
    simp only [annotateFrom, Std.HashMap.getElem?_insert, List.findIdx?_cons, ih]
    split
    · simp
    · rw [Option.map_map]
      congr 1
      funext i
      simp only [Function.comp_apply, Nat.cast_add, Nat.cast_one]
      omega

theorem annotateFrom_getElem? (now : Int) (rs : List Request) (k : Nat) :
    (annotateFrom now rs).1[k]? = rs[k]?.map fun r => { r with
      next := ((rs.drop (k + 1)).findIdx? (·.id == r.id)).map fun i : Nat => now + (k + 1 : Nat) + i } := by
  induction rs generalizing now k with
  | nil => rfl
  | cons r rs ih =>
    cases k with
    | zero => simp [annotateFrom, annotateFrom_table]
    | succ k =>
      have later : now + 1 + (k + 1 : Nat) = now + (k + 1 + 1 : Nat) := by
        push_cast
        omega
      simp only [annotateFrom, List.getElem?_cons_succ, List.drop_succ_cons, ih, later]

theorem annotateFrom_again (now : Int) (rs : List Request) :
    annotateFrom now (annotateFrom now rs).1 = annotateFrom now rs := by
  induction rs generalizing now with
  | nil => rfl
  | cons r rs ih => simp only [annotateFrom, ih]

def Request.unhinted (r : Request) : Request := { r with next := none }

theorem annotateFrom_unhinted (now : Int) (rs : List Request) :
    (annotateFrom now rs).1.map Request.unhinted = rs.map Request.unhinted := by
  induction rs generalizing now with
  | nil => rfl
  | cons r rs ih =>
    simp only [annotateFrom, List.map_cons, ih]
    rfl

theorem annotateNextAccess_next {t : List Request} {k : Nat} {r : Request}
    (hr : (annotateNextAccess t)[k]? = some r) (h : Int) :
    r.next = some h ↔ ∃ j, NextUse t k j ∧ h = (j + 1 : Nat) := by
  rw [annotateNextAccess, annotateFrom_getElem?] at hr
  obtain ⟨u, hu, rfl⟩ := Option.map_eq_some_iff.mp hr
  simp only [nextUse_iff hu, Option.map_eq_some_iff]
  constructor
  · rintro ⟨i, found, rfl⟩
    refine ⟨k + 1 + i, ⟨i, found, rfl⟩, ?_⟩
    push_cast
    omega
  · rintro ⟨_, ⟨i, found, rfl⟩, rfl⟩
    refine ⟨i, found, ?_⟩
    push_cast
    omega

end annotate

theorem NextUse.unique {t : List Request} {k i j : Nat} (hi : NextUse t k i) (hj : NextUse t k j) :
    i = j := by
  rcases Nat.lt_trichotomy i j with before | same | after
  · exact absurd hi.same (hj.first i hi.behind before)
  · exact same
  · exact absurd hj.same (hi.first j hj.behind after)

section
variable {σ : Type} [EvictionPolicy σ]

/--
A simulation serves the request at position `k` of its trace as `req`, which is
shifted, on the state `s`.
-/
def Serves (w : Warmup) (rs : List Request) (c : σ) (k : Nat) (s : σ) (req : Request) : Prop :=
  ∃ b n r, preheat { w.shift rs with offset := 0 } w.preamble c = .ok b ∧
    replay w (w.shift rs) rs.length 0 (rs.take k) b
      ⟨0, 0, 0, 0, w.preamble.length, (account b).expired⟩ = .ok (s, n) ∧
    rs[k]? = some r ∧ (w.shift rs).apply r = .ok req

/-- The logical time at which a request is served: the number of requests seen, itself included. -/
def servedAt (s : σ) (req : Request) : Int := ((account s).begun req).requests

theorem exists_serves {w : Warmup} {rs : List Request} {c : σ} {p : Statistics × σ}
    (done : simulate rs c w = .ok p) {k : Nat} (hk : k < rs.length) : ∃ s req, Serves w rs c k s req := by
  obtain ⟨b, warmed, done⟩ := (bind_eq_ok_iff ..).mp done
  obtain ⟨q, replayed, -⟩ := (bind_eq_ok_iff ..).mp done
  have split : rs.take k ++ rs[k] :: rs.drop (k + 1) = rs := by
    rw [← List.drop_eq_getElem_cons hk, List.take_append_drop]
  rw [← split, replay_append, split] at replayed
  obtain ⟨⟨s, n⟩, before, after⟩ := (bind_eq_ok_iff ..).mp replayed
  obtain ⟨req, applied, -⟩ := (bind_eq_ok_iff ..).mp after
  exact ⟨s, req, b, n, rs[k], warmed, before, List.getElem?_eq_getElem hk, applied⟩

/-- The hints of a simulated trace name the logical times at which objects are served next. -/
structure HintsMeet (tol : Tolerance) (w : Warmup) (t : List Request) (c : σ) : Prop where
  serves : Settles tol (simulate (annotateNextAccess t) c w) fun _ =>
    ∀ k < t.length, ∃ s req, Serves w (annotateNextAccess t) c k s req
  time : ∀ {k s req}, Serves w (annotateNextAccess t) c k s req →
    servedAt s req = w.preamble.length + k + 1
  shown : ∀ {k s req}, Serves w (annotateNextAccess t) c k s req → IsTime (servedAt s req) →
    ((account s).begun req).now = servedAt s req
  none_iff : ∀ {k s req}, Serves w (annotateNextAccess t) c k s req →
    (req.next = none ↔ ∀ j, ¬NextUse t k j)
  some_iff : ∀ {k s req p}, simulate (annotateNextAccess t) c w = .ok p →
    Serves w (annotateNextAccess t) c k s req → ∀ h, req.next = some h ↔
      ∃ j s' req', NextUse t k j ∧ Serves w (annotateNextAccess t) c j s' req' ∧ servedAt s' req' = h
  /-- A simulation that is stopped later has served right hints so far. -/
  meets : ∀ {k j s s' req req'}, NextUse t k j → Serves w (annotateNextAccess t) c k s req →
    Serves w (annotateNextAccess t) c j s' req' →
      req.next = some (servedAt s' req') ∧ servedAt s req < servedAt s' req'

theorem EvictionPolicy.Dependable.hintsMeet {tol : Tolerance} {caches absent : σ → Nat → Prop}
    {sound : σ → Prop} (d : Dependable tol caches absent sound) {c : σ} (hc : sound c)
    (begins : (account c).requests = 0) (w : Warmup) (t : List Request) : HintsMeet tol w t c := by
  have length : (annotateNextAccess t).length = t.length := annotateFrom_length 1 t
  have time : ∀ {k s req}, Serves w (annotateNextAccess t) c k s req →
      servedAt s req = w.preamble.length + k + 1 := by
    rintro k s req ⟨b, n, r, warmed, replayed, hr, -⟩
    have preheated := d.settles_preheat { w.shift (annotateNextAccess t) with offset := 0 } w.preamble c hc
    rw [warmed] at preheated
    have counted := d.settles_replay w (w.shift (annotateNextAccess t)) (annotateNextAccess t).length 0
      ((annotateNextAccess t).take k) b ⟨0, 0, 0, 0, w.preamble.length, (account b).expired⟩ preheated.1
    rw [replayed] at counted
    have inside := (List.getElem?_eq_some_iff.mp hr).1
    have requests : (account s).requests = w.preamble.length + k := by
      rw [counted.2, preheated.2, begins, List.length_take]
      omega
    show (((account s).requests + 1 : Nat) : Int) = _
    rw [requests]
    push_cast
    rfl
  have hint : ∀ {k s req}, Serves w (annotateNextAccess t) c k s req → ∀ h,
      req.next = some h ↔ ∃ j, NextUse t k j ∧ h = w.preamble.length + j + 1 := by
    rintro k s req ⟨b, n, r, -, -, hr, applied⟩ h
    obtain ⟨rfl, -, -⟩ := ((w.shift _).apply_eq_ok_iff r req).mp applied
    simp only [Option.map_eq_some_iff, annotateNextAccess_next hr]
    constructor
    · rintro ⟨_, ⟨j, use, rfl⟩, rfl⟩
      refine ⟨j, use, ?_⟩
      simp only [Warmup.shift]
      push_cast
      omega
    · rintro ⟨j, use, rfl⟩
      refine ⟨_, ⟨j, use, rfl⟩, ?_⟩
      simp only [Warmup.shift]
      push_cast
      omega
  have served : ∀ {p}, simulate (annotateNextAccess t) c w = .ok p → ∀ k < t.length,
      ∃ s req, Serves w (annotateNextAccess t) c k s req :=
    fun done k hk => exists_serves done (length ▸ hk)
  refine ⟨?_, time, fun _ range => timeOfWord_of_isTime range, fun now => ?_, fun done now h => ?_, fun use now later => ?_⟩
  · exact (d.settles_simulate w (annotateNextAccess t) c hc).eq_ok.mono fun p done => served done.1
  · rw [Option.eq_none_iff_forall_ne_some]
    simp only [ne_eq, hint now]
    constructor
    · exact fun none j use => none _ ⟨j, use, rfl⟩
    · rintro none h ⟨j, use, -⟩
      exact none j use
  · rw [hint now]
    constructor
    · rintro ⟨j, use, rfl⟩
      obtain ⟨s', req', later⟩ := served done j use.inside
      exact ⟨j, s', req', use, later, time later⟩
    · rintro ⟨j, s', req', use, later, rfl⟩
      exact ⟨j, use, time later⟩
  · refine ⟨(hint now _).mpr ⟨_, use, time later⟩, ?_⟩
    rw [time now, time later]
    have := use.behind
    omega

end

namespace AnyCache
open Regression
variable {μ : Type} [Regressor μ]

theorem Fresh.requests_eq {c : AnyCache μ} (fresh : c.Fresh) : (account c).requests = 0 := by
  cases fresh with
  | clock _ _ bits accepted =>
    unfold Clock.withBits at accepted
    split at accepted
    · cases accepted
      rfl
    · cases accepted
  | _ => rfl

/--
On a fresh cache of any policy and after any warmup, each request of an
annotated trace carries the logical time at which its object is served next,
and no hint if it is not requested again. Annotating changes hints only, and
does so once.
-/
theorem hints_meet {c : AnyCache μ} (fresh : c.Fresh) (w : Warmup) (t : List Request) :
    HintsMeet (.ofModel μ) w t c ∧
      (annotateNextAccess t).map Request.unhinted = t.map Request.unhinted ∧
      annotateNextAccess (annotateNextAccess t) = annotateNextAccess t := by
  obtain ⟨sound, dependable, hc⟩ := fresh.dependable
  exact ⟨dependable.hintsMeet hc fresh.requests_eq w t, annotateFrom_unhinted 1 t,
    congrArg Prod.fst (annotateFrom_again 1 t)⟩

theorem hints_meet_warmed :
    HintsMeet (.ofModel Boosted) (.trace [.ofId 7 1 0]) [.ofId 1 5 1, .ofId 2 5 2, .ofId 1 5 3]
      (.sieve (.empty 10 0) : AnyCache Boosted) ∧
    (annotateNextAccess [.ofId 1 5 1, .ofId 2 5 2, .ofId 1 5 3]).map Request.unhinted =
      [Request.ofId 1 5 1, .ofId 2 5 2, .ofId 1 5 3].map Request.unhinted ∧
    annotateNextAccess (annotateNextAccess [.ofId 1 5 1, .ofId 2 5 2, .ofId 1 5 3]) =
      annotateNextAccess [.ofId 1 5 1, .ofId 2 5 2, .ofId 1 5 3] :=
  hints_meet (.sieve 10 0) _ _

example : (annotateNextAccess [.ofId 1 5 1, .ofId 2 5 2, .ofId 1 5 3]).map (·.next) =
    [some 3, none, none] := by cbv

end AnyCache
end CacheReplay
