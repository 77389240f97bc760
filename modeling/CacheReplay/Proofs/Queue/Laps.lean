import CacheReplay.Proofs.Queue.Line
import CacheReplay.Proofs.Queue.Upkeep
import Mathlib

set_option autoImplicit false

/-!
# The laps of a clock

A scan takes whole laps, each of which lowers all counters by one and leaves the
line as it was, until the least counter is zero. The last lap is cut short by the
first object at zero. So the scan ends at the first of the least counters, and
nothing is left to chance about the objects that it sends to the front.
-/
namespace CacheReplay
open EvictionPolicy

namespace EvictionPolicy
variable {σ : Type} [EvictionPolicy σ] {t : Tolerance} {caches absent : σ → Nat → Prop}
  {sound : σ → Prop} {debt : σ → Nat}

/-- A look-up raises a measure by one at the most, and no other operation raises it. -/
structure Metered (t : Tolerance) (absent : σ → Nat → Prop) (sound : σ → Prop) (debt : σ → Nat) :
    Prop where
  begun : ∀ (s : σ) (req : Request), debt (withAccount s ((account s).begun req)) = debt s
  check : ∀ (s : σ) (req : Request) (update : Bool), sound s →
    Settles t (check s req update) fun p => debt p.2 ≤ debt s + 1
  evict : ∀ (s : σ) (req : Request), sound s → IsWord (debt s) →
    Settles t (evict s req) fun p => debt p.2 ≤ debt s
  insert : ∀ (s : σ) (req : Request), sound s → absent s req.id →
    (account s).occupied + (req.size + (account s).overhead) ≤ (account s).capacity →
    Settles t (insert s req) fun p => debt p.2 ≤ debt s
  remove : ∀ (s : σ) (id : Nat), sound s → Settles t (remove s id) fun p => debt p.2 ≤ debt s
  settle : ∀ (s : σ) (hit : Bool), sound s → Settles t (settle s hit) fun s' => debt s' ≤ debt s

namespace Metered
variable (m : Metered t absent sound debt) (d : Dependable t caches absent sound)
include m d

theorem settles_makeRoom (req : Request) (tries : Nat) {s : σ} (hs : sound s) (word : IsWord (debt s)) :
    Settles t (makeRoom req tries s) fun p => debt p.2 ≤ debt s := by
  induction tries generalizing s with
  | zero =>
    unfold makeRoom
    apply settles_bind ((account s).settles_needsRoom req.size)
    intro needs _
    split <;> exact settles_pure (Nat.le_refl _)
  | succ tries ih =>
    unfold makeRoom
    apply settles_bind ((account s).settles_needsRoom req.size)
    intro needs _
    split
    · apply settles_bind ((m.evict s req hs word).and (d.evict s req hs))
      intro p evicted
      dsimp only
      split
      · apply (ih evicted.2.1 (word.of_le evicted.1)).mono
        exact fun q later => later.trans evicted.1
      · exact settles_pure evicted.1
    · exact settles_pure (Nat.le_refl _)

theorem settles_takeIn {req : Request} {s : σ} (hs : sound s) (missed : absent s req.id)
    (word : IsWord (debt s)) : Settles t (takeIn s req) fun s' => debt s' ≤ debt s := by
  unfold takeIn
  apply settles_bind ((account s).settles_admits req.size)
  intro fits hfits
  split
  · rename_i small
    apply settles_bind ((m.settles_makeRoom d req (evictable s) hs word).and
      (d.settles_makeRoom hs (hfits.mp small) (Nat.le_refl _)))
    rintro p ⟨less, -, hs', -, keeps, room⟩
    dsimp only
    split
    · exact settles_bind (m.insert p.2 req hs' (keeps _ missed) room) fun q later =>
        settles_pure (later.trans less)
    · exact settles_pure less
  · exact settles_pure (Nat.le_refl _)

theorem settles_answer {req : Request} {s : σ} (hs : sound s) (word : IsWord (debt s + 1)) :
    Settles t (answer s req) fun p => debt p.2 ≤ debt s + 1 := by
  unfold answer
  apply settles_bind ((account s).settles_begin req)
  rintro _ rfl
  have begun := d.begun s req hs
  have same := m.begun s req
  generalize withAccount s ((account s).begun req) = b at begun same ⊢
  unfold respond
  apply settles_bind ((m.check b req true begun).and (d.check b req true begun))
  rintro ⟨outcome, c⟩ ⟨raised, hc, -, found⟩
  rw [same] at raised
  have miss : outcome ≠ .hit → Settles t (do
      let s ← takeIn c req
      pure (false, s) : Checked (Bool × σ)) fun p => debt p.2 ≤ debt s + 1 := fun missed =>
    settles_bind (m.settles_takeIn d hc ((found rfl).2 missed) (word.of_le raised)) fun c' less =>
      settles_pure (less.trans raised)
  cases outcome with
  | hit => exact settles_pure raised
  | miss => exact miss nofun
  | expired => exact miss nofun

theorem settles_perform (op : Operation) {s : σ} (hs : sound s) (word : IsWord (debt s + 1)) :
    Settles t (perform s op) fun s' => debt s' ≤ debt s + 1 := by
  cases op with
  | get req =>
    apply settles_map
    rw [serve_eq]
    apply settles_bind ((m.settles_answer d hs word).and (d.settles_answer s req hs))
    intro p answered
    exact settles_bind (m.settle p.2 p.1 answered.2.1) fun s' less =>
      settles_pure (less.trans answered.1)
  | check req update => exact settles_map (m.check s req update hs)
  | remove id => exact settles_map ((m.remove s id hs).mono fun _ less => Nat.le_succ_of_le less)
  | evict req =>
    have evicted := m.evict s req hs (word.of_le (Nat.le_succ _))
    exact settles_map (evicted.mono fun _ less => Nat.le_succ_of_le less)

theorem settles_run {s : σ} {ops : List Operation} (hs : sound s) (word : IsWord (debt s + ops.length)) :
    Settles t (run s ops) fun s' => debt s' ≤ debt s + ops.length := by
  induction ops generalizing s with
  | nil => exact settles_pure (Nat.le_refl _)
  | cons op ops ih =>
    rw [List.length_cons] at word ⊢
    rw [run, List.foldlM_cons]
    have performed := m.settles_perform d op hs (word.of_le (by omega))
    apply settles_bind (performed.and (d.settles_perform s op hs))
    intro c done
    have rest := done.1
    apply (ih done.2 (word.of_le (by omega))).mono
    intro s' less
    omega

end Metered
end EvictionPolicy

namespace Clock
variable {t : Tolerance}

theorem metered : Metered .any (fun (c : Clock) id => ¬c.queue.store.caches id = true) Sound debt where
  begun _ _ := rfl
  check c req update k := by
    obtain ⟨s, h⟩ := k.holds
    cases update with
    | false =>
      apply (handy.look c req).settles.mono
      rintro p rfl
      exact Nat.le_succ _
    | true =>
      apply settles_bind (settles_check_total h req c.maxCount)
      intro p raised
      exact settles_pure (Nat.add_le_add_left raised _)
  evict c req k word := (exact.evict c req k word).settles.mono fun _ done => done.2
  insert c req k free room := by
    obtain ⟨s, h⟩ := k.holds
    apply settles_bind (settles_push_total h free room)
    intro p less
    exact settles_pure (Nat.add_le_add_left less _)
  remove c id k := (handy.remove c id k).settles.mono fun _ done => done.2
  settle _ _ _ := settles_pure (Nat.le_refl _)

def lowered (n : Nat) (e : Slot × Record Nat) : Slot × Record Nat :=
  (e.1, { e.2 with tag := e.2.tag - n })

theorem lowered_zero : lowered 0 = id := rfl

theorem lowered_lowered (n m : Nat) (e : Slot × Record Nat) :
    lowered m (lowered n e) = lowered (n + m) e := by
  simp [lowered, Nat.sub_sub]

section
variable {steps : Nat} {c : Clock} {l r before after : List (Slot × Record Nat)}
  {e : Slot × Record Nat} {post : Bool × Clock → Prop}

theorem settles_scan_lower (lined : c.queue.Lined (e :: l)) (counted : 0 < e.2.tag)
    (rest : ∀ q : ObjectQueue Nat, q.Lined (l ++ [lowered 1 e]) → c.queue.Steady q →
      Settles t (scan steps ⟨q, c.maxCount, c.reinserted + 1⟩) post) :
    Settles t (scan (steps + 1) c) post := by
  obtain ⟨u, hu, -, tag⟩ := lined.exists_tag List.mem_cons_self
  obtain ⟨n, hn⟩ := Nat.exists_eq_succ_of_ne_zero (Nat.ne_of_gt counted)
  have lower : lowered 1 e = (e.1, { e.2 with tag := n }) := by
    rw [lowered, hn]
    rfl
  have next := ObjectQueue.Lined.retag (show c.queue.Lined ([] ++ e :: l) from lined) n
  rw [List.nil_append, ← lower] at next
  obtain ⟨q, moved, lined', steady⟩ := next.moveToFront
  have count : u.tag = n + 1 := tag.trans hn
  unfold scan
  simp only [lined.back_eq, List.head?_cons, Option.map_some, hu, Option.elim_some, count]
  rw [show ObjectQueue.moveToFront _ e.1 = _ from moved, ok_bind]
  apply settles_bind (settles_addWord c.reinserted 1)
  rintro _ ⟨rfl, -⟩
  exact rest q lined' ⟨steady.account, steady.index⟩

theorem settles_scan_drop (lined : c.queue.Lined (e :: l)) (zero : e.2.tag = 0) :
    Settles t (scan steps c) fun p => p.1 = true ∧ p.2.queue.Lined l ∧
      p.2.reinserted = c.reinserted ∧ p.2.maxCount = c.maxCount ∧
      p.2.queue.account = c.queue.account.released e.2.size ∧
      ∀ id, p.2.queue.store.caches id = true ↔ c.queue.store.caches id = true ∧ id ≠ e.2.id := by
  obtain ⟨u, hu, -, tag⟩ := lined.exists_tag List.mem_cons_self
  have count : u.tag = 0 := tag.trans zero
  unfold scan
  simp only [lined.back_eq, List.head?_cons, Option.map_some, hu, Option.elim_some, count]
  apply settles_bind (show c.queue.Lined ([] ++ e :: l) from lined).yields_drop.settles
  intro q dropped
  exact settles_pure ⟨rfl, dropped.1, rfl, rfl, dropped.2⟩

/-- The part of a lap that lowers the counters at the back of the line. -/
theorem settles_scan_pass (lined : c.queue.Lined (l ++ r)) (counted : ∀ e ∈ l, 0 < e.2.tag)
    (rest : ∀ q : ObjectQueue Nat, q.Lined (r ++ l.map (lowered 1)) → c.queue.Steady q →
      Settles t (scan steps ⟨q, c.maxCount, c.reinserted + l.length⟩) post) :
    Settles t (scan (l.length + steps) c) post := by
  induction l generalizing r c with
  | nil =>
    rw [List.length_nil, Nat.zero_add]
    exact rest c.queue (by simpa using lined) (.refl _)
  | cons e l ih =>
    rw [show (e :: l).length + steps = l.length + steps + 1 by simp; omega]
    rw [List.cons_append] at lined
    apply settles_scan_lower lined (counted e List.mem_cons_self)
    intro q lined' steady
    rw [List.append_assoc] at lined'
    apply ih lined' fun x hx => counted x (List.mem_cons_of_mem e hx)
    intro q' lined'' later
    have count : c.reinserted + 1 + l.length = c.reinserted + (e :: l).length := by simp; omega
    rw [count]
    exact rest q' (by simpa using lined'') (steady.trans later)

theorem settles_scan_laps (m : Nat) (lined : c.queue.Lined l) (counted : ∀ e ∈ l, m ≤ e.2.tag)
    (rest : ∀ q : ObjectQueue Nat, q.Lined (l.map (lowered m)) → c.queue.Steady q →
      Settles t (scan steps ⟨q, c.maxCount, c.reinserted + m * l.length⟩) post) :
    Settles t (scan (m * l.length + steps) c) post := by
  induction m generalizing c l with
  | zero =>
    rw [Nat.zero_mul, Nat.zero_add]
    have all := rest c.queue (by simpa [lowered_zero] using lined) (.refl _)
    rwa [Nat.zero_mul] at all
  | succ m ih =>
    rw [show (m + 1) * l.length + steps = l.length + (m * l.length + steps) by ring]
    apply settles_scan_pass (r := []) (by simpa using lined) fun e he => Nat.lt_of_lt_of_le m.succ_pos
      (counted e he)
    intro q lined' steady
    rw [List.nil_append] at lined'
    have left : ∀ e ∈ l.map (lowered 1), m ≤ e.2.tag := by
      intro e he
      obtain ⟨x, hx, rfl⟩ := List.mem_map.mp he
      exact Nat.le_sub_of_add_le (counted x hx)
    have turns : m * (l.map (lowered 1)).length = m * l.length := by rw [List.length_map]
    rw [← turns]
    apply ih lined' left
    intro q' lined'' later
    have again : (l.map (lowered 1)).map (lowered m) = l.map (lowered (m + 1)) := by
      rw [List.map_map, Nat.add_comm]
      exact List.map_congr_left fun e _ => lowered_lowered 1 m e
    have count : c.reinserted + l.length + m * (l.map (lowered 1)).length =
        c.reinserted + (m + 1) * l.length := by
      rw [turns]
      ring
    rw [count]
    exact rest q' (again ▸ lined'') (steady.trans later)

/-- Where the first of the least counters of a line stands. -/
structure FirstLeast (l : List (Slot × Record Nat)) (k : Nat) (e : Slot × Record Nat) : Prop where
  stands : l[k]? = some e
  least : ∀ x ∈ l, e.2.tag ≤ x.2.tag
  first : ∀ x ∈ l.take k, e.2.tag < x.2.tag

structure Lapped (c : Clock) (k : Nat) (e : Slot × Record Nat) (p : Bool × Clock) : Prop where
  done : p.1 = true
  line : p.2.queue.line = (c.queue.line.drop (k + 1)).map (lowered e.2.tag) ++
    (c.queue.line.take k).map (lowered (e.2.tag + 1))
  reinserted : p.2.reinserted = c.reinserted + (e.2.tag * c.queue.line.length + k)
  ceiling : p.2.maxCount = c.maxCount
  account : p.2.queue.account = c.queue.account.released e.2.size
  caches : ∀ id, p.2.queue.store.caches id = true ↔ c.queue.store.caches id = true ∧ id ≠ e.2.id

theorem exists_firstLeast (ne : l ≠ []) : ∃ k e, FirstLeast l k e := by
  induction l with
  | nil => exact absurd rfl ne
  | cons x l ih =>
    by_cases lone : l = []
    · subst lone
      exact ⟨0, x, rfl, by simp, by simp⟩
    obtain ⟨k, e, stands, least, first⟩ := ih lone
    by_cases lower : x.2.tag ≤ e.2.tag
    · refine ⟨0, x, rfl, fun y hy => ?_, by simp⟩
      rcases List.mem_cons.mp hy with rfl | later
      · exact Nat.le_refl _
      · exact lower.trans (least y later)
    · have above : e.2.tag < x.2.tag := Nat.lt_of_not_le lower
      refine ⟨k + 1, e, stands, fun y hy => ?_, fun y hy => ?_⟩
      · rcases List.mem_cons.mp hy with rfl | later
        · exact Nat.le_of_lt above
        · exact least y later
      · rcases List.mem_cons.mp (List.take_succ_cons ▸ hy) with rfl | later
        · exact above
        · exact first y later

namespace FirstLeast
variable {k : Nat} (f : FirstLeast l k e)
include f

theorem lt_length : k < l.length := (List.getElem?_eq_some_iff.mp f.stands).1

theorem split : l = l.take k ++ e :: l.drop (k + 1) := by
  obtain ⟨short, rfl⟩ := List.getElem?_eq_some_iff.mp f.stands
  rw [← List.drop_eq_getElem_cons short, List.take_append_drop]

end FirstLeast

/-- The scan ends within the laps that the ceiling of the counters allows. -/
theorem settles_scan_laps_drop {k : Nat} (lined : c.queue.Lined l) (f : FirstLeast l k e)
    (enough : e.2.tag * l.length + k ≤ steps) : Settles t (scan steps c) (c.Lapped k e) := by
  obtain ⟨spare, rfl⟩ := Nat.exists_eq_add_of_le enough
  rw [Nat.add_assoc]
  apply settles_scan_laps e.2.tag lined f.least
  intro q lined' steady
  have turns : k = ((l.take k).map (lowered e.2.tag)).length := by
    rw [List.length_map, List.length_take, Nat.min_eq_left (Nat.le_of_lt f.lt_length)]
  have order : l.map (lowered e.2.tag) = (l.take k).map (lowered e.2.tag) ++
      (lowered e.2.tag e :: (l.drop (k + 1)).map (lowered e.2.tag)) := by
    conv_lhs => rw [f.split]
    rw [List.map_append, List.map_cons]
  rw [order] at lined'
  conv in k + spare => rw [turns]
  apply settles_scan_pass lined'
  · intro x hx
    obtain ⟨y, hy, rfl⟩ := List.mem_map.mp hx
    exact Nat.sub_pos_of_lt (f.first y hy)
  intro q' lined'' later
  have all := steady.trans later
  rw [List.cons_append] at lined''
  apply (settles_scan_drop lined'' (Nat.sub_self _)).mono
  rintro p ⟨done, rest, count, ceiling, account, caches⟩
  have again : ((l.take k).map (lowered e.2.tag)).map (lowered 1) =
      (l.take k).map (lowered (e.2.tag + 1)) := by
    rw [List.map_map]
    exact List.map_congr_left fun x _ => lowered_lowered e.2.tag 1 x
  constructor
  · exact done
  · rw [rest.line_eq, lined.line_eq, again]
  · rw [count, lined.line_eq, ← turns, Nat.add_assoc]
  · exact ceiling
  · rw [account, all.account]
    rfl
  · intro id
    rw [caches, all.caches_eq]
    rfl

theorem Sound.settles_evict_laps (h : c.Sound) {k : Nat} (f : FirstLeast c.queue.line k e) :
    Settles t c.evict (c.Lapped k e) := by
  obtain ⟨s, holds⟩ := h.holds
  have lined := holds.lined
  apply settles_scan_laps_drop lined f
  have limit : ∀ x ∈ c.queue.line, x.2.tag ≤ c.maxCount := by
    intro x hx
    obtain ⟨u, hu, -, tag⟩ := lined.exists_tag hx
    exact tag ▸ h.tags x.1 u hu
  rw [lined.length_eq]
  have short := f.lt_length
  have top := limit e (List.mem_of_getElem? f.stands)
  rcases Nat.lt_or_eq_of_le top with below | full
  · calc e.2.tag * c.queue.line.length + k ≤ (e.2.tag + 1) * c.queue.line.length := by
          rw [Nat.succ_mul]
          omega
      _ ≤ c.maxCount * c.queue.line.length := Nat.mul_le_mul_right _ below
  · -- Nothing in front of the first counter at the ceiling is above it.
    have none : k = 0 := by
      by_contra some
      obtain ⟨x, hx⟩ : ∃ x, x ∈ c.queue.line.take k := by
        apply List.exists_mem_of_length_pos
        rw [List.length_take]
        omega
      have above := f.first x hx
      have below := limit x (List.mem_of_mem_take hx)
      omega
    rw [none, full]
    exact Nat.le_refl _

end

theorem foldl_lower_of_le {b : Nat × Nat} {l : List (Nat × Nat)} (least : ∀ x ∈ l, b.1 ≤ x.1) :
    l.foldl lower (some b) = some b := by
  induction l with
  | nil => rfl
  | cons x l ih =>
    rw [List.foldl_cons, lower, if_neg (Nat.not_lt.mpr (least x List.mem_cons_self))]
    exact ih fun y hy => least y (List.mem_cons_of_mem x hy)

theorem lt_foldl_lower {n : Nat} {best : Option (Nat × Nat)} {l : List (Nat × Nat)}
    (above : ∀ b ∈ best, n < b.1) (first : ∀ x ∈ l, n < x.1) : ∀ b ∈ l.foldl lower best, n < b.1 := by
  induction l generalizing best with
  | nil => exact above
  | cons x l ih =>
    rw [List.foldl_cons]
    apply ih _ fun y hy => first y (List.mem_cons_of_mem x hy)
    have own := first x List.mem_cons_self
    intro b hb
    cases best with
    | none => exact Option.some.inj hb ▸ own
    | some a =>
      rw [lower] at hb
      split at hb
      · exact Option.some.inj hb ▸ own
      · exact above b hb

/-- What is named to go is what the laps of a scan end at. -/
theorem FirstLeast.victim_eq {c : Clock} {k : Nat} {e : Slot × Record Nat}
    (f : FirstLeast c.queue.line k e) : c.victim = some e.2.id := by
  have sweep : c.sweep = c.queue.line.map fun x => (x.2.tag, x.2.id) := by
    rw [Clock.sweep, ObjectQueue.line, List.map_filterMap]
    simp only [Option.map_map]
    rfl
  have ahead : ∀ x ∈ (c.queue.line.take k).map fun x => (x.2.tag, x.2.id), e.2.tag < x.1 := by
    intro x hx
    obtain ⟨y, hy, rfl⟩ := List.mem_map.mp hx
    exact f.first y hy
  have behind : ∀ x ∈ (c.queue.line.drop (k + 1)).map fun x => (x.2.tag, x.2.id), e.2.tag ≤ x.1 := by
    intro x hx
    obtain ⟨y, hy, rfl⟩ := List.mem_map.mp hx
    exact f.least y (List.mem_of_mem_drop hy)
  rw [victim, sweep, f.split, List.map_append, List.map_cons, List.foldl_append, List.foldl_cons]
  have fresh : ∀ b ∈ (none : Option (Nat × Nat)), e.2.tag < b.1 := by simp
  have above := lt_foldl_lower fresh ahead
  generalize ((c.queue.line.take k).map fun x => (x.2.tag, x.2.id)).foldl lower none = best at above ⊢
  have taken : lower best (e.2.tag, e.2.id) = some (e.2.tag, e.2.id) := by
    cases best with
    | none => rfl
    | some b => exact if_pos (above b rfl)
  rw [taken, foldl_lower_of_le behind]
  rfl

/--
Whatever a run has done before, an eviction drops the first object from the back
whose counter is least, which is the one that was named before. Every object
behind it has its counter lowered by that least counter and every object in front
of it by one more; these come last in the new line, and each step counts as one
object sent to the front. An eviction cannot fail unless more operations were done
than a word counts.
-/
theorem run_evicts_least {capacity overhead bits : Nat} {c₀ : Clock}
    (accepted : withBits capacity overhead bits = .ok c₀) (ops : List Operation) :
    Settles .arithmetic (run c₀ ops) fun c => c.queue.line ≠ [] →
      ∃ k e, FirstLeast c.queue.line k e ∧ ∀ req,
        EvictionPolicy.victim c req = pure (some e.2.id) ∧
        Settles .arithmetic (EvictionPolicy.evict c req) (c.Lapped k e) ∧
        (IsWord ops.length → Yields (EvictionPolicy.evict c req) (c.Lapped k e)) := by
  have rest := rest_of_withBits accepted
  have free : c₀.debt = 0 := by
    unfold withBits at accepted
    split at accepted <;> cases accepted
    rfl
  have owed : Settles .any (run c₀ ops) fun c => IsWord ops.length → c.debt ≤ ops.length := by
    by_cases word : IsWord ops.length
    · have bound : Settles .any (run c₀ ops) fun c => c.debt ≤ c₀.debt + ops.length :=
        metered.settles_run dependable rest.sound (by rwa [free, Nat.zero_add])
      apply bound.mono
      intro c less _
      rwa [free, Nat.zero_add] at less
    · exact (settles_any _).mono fun _ _ fine => absurd fine word
  apply ((dependable.settles_run c₀ ops rest.sound).also owed).mono
  rintro c ⟨sound, debts⟩ ne
  obtain ⟨k, e, f⟩ := exists_firstLeast ne
  refine ⟨k, e, f, fun req => ⟨?_, sound.settles_evict_laps f, fun word => ?_⟩⟩
  · show pure c.victim = (pure (some e.2.id) : Audit (Option Nat))
    rw [f.victim_eq]
  · have answers := exact.evict c req sound (word.of_le (debts word))
    have lapped := sound.settles_evict_laps (t := .any) f
    exact (answers.and lapped).mono fun p done => done.2

/-- With counters of two, one and one, a scan takes a lap and one step more. -/
theorem run_evicts_least_lapped : withBits 9 0 2 = .ok ⟨.empty 9 0, 3, 0⟩ ∧
    ∃ c, run (⟨.empty 9 0, 3, 0⟩ : Clock) [.get (.ofId 1 1 0), .get (.ofId 2 2 0), .get (.ofId 3 3 0),
      .get (.ofId 1 1 1), .get (.ofId 2 2 1), .get (.ofId 3 3 1), .get (.ofId 1 1 2)] = .ok c ∧
    c.queue.line.map (fun e => (e.2.id, e.2.tag)) = [(1, 2), (2, 1), (3, 1)] ∧
    ∃ k e, FirstLeast c.queue.line k e ∧ ∀ req,
      EvictionPolicy.victim c req = pure (some e.2.id) ∧
      Yields (EvictionPolicy.evict c req) (c.Lapped k e) := by
  refine ⟨rfl, ?_⟩
  have reached := yields_of_toOption (x := run (⟨.empty 9 0, 3, 0⟩ : Clock) [.get (.ofId 1 1 0),
    .get (.ofId 2 2 0), .get (.ofId 3 3 0), .get (.ofId 1 1 1), .get (.ofId 2 2 1), .get (.ofId 3 3 1),
    .get (.ofId 1 1 2)]) (f := fun c => c.queue.line.map fun e => (e.2.id, e.2.tag))
    (b := [(1, 2), (2, 1), (3, 1)]) (by cbv)
  obtain ⟨c, e, line, evicts⟩ :=
    reached.and (run_evicts_least (show withBits 9 0 2 = .ok ⟨.empty 9 0, 3, 0⟩ from rfl) _)
  have some : c.queue.line ≠ [] := by
    rintro none
    simp [none] at line
  obtain ⟨k, entry, f, done⟩ := evicts some
  exact ⟨c, e, line, k, entry, f, fun req => ⟨(done req).1, (done req).2.2 (by decide)⟩⟩

end Clock
end CacheReplay
