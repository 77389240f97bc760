import CacheReplay.Proofs.Lookup
import CacheReplay.Proofs.Queue.Headroom

set_option autoImplicit false

namespace CacheReplay

namespace Account
variable {a : Account} {size : Nat}

theorem Sheds.trans {a b c : Account} (h : a.Sheds b) (k : b.Sheds c) : a.Sheds c :=
  ⟨Nat.le_trans k.tally h.tally, Nat.le_trans k.occupied h.occupied, h.terms.trans k.terms⟩

theorem begin_overflow (req : Request) (out : ¬IsWord (a.requests + 1)) :
    a.begin req = .error .overflow := by
  rw [Account.begin, addWord, if_neg out]
  rfl

theorem footprint_overflow (out : ¬IsWord (size + a.overhead)) : a.footprint size = .error .overflow :=
  if_neg out

theorem needsRoom_overflow (out : ¬IsWord (a.occupied + (size + a.overhead))) :
    a.needsRoom size = .error .overflow := by
  rw [needsRoom]
  by_cases bytes : IsWord (size + a.overhead)
  · rw [footprint_of_isWord bytes, ok_bind, addWord, if_neg out]
    rfl
  · rw [footprint_overflow bytes]
    rfl

end Account

theorem Store.insert_overflow {μ : Type} {s : Store μ} {req : Request} (now : Int) (tag : μ)
    (free : s.find? req.id = none) (late : ¬req.Timely) : s.insert req now tag = .error .overflow := by
  have absent : (s.entry req.id).live.isSome = false := by
    rw [isSome_live_entry, caches, free]
    rfl
  have stale : Record.ofRequest req now tag = .error .overflow := by
    unfold Request.Timely at late
    push Not at late
    obtain ⟨d, ttl, out⟩ := late
    rw [Record.ofRequest, ttl, Option.mapM_some, addTime, if_neg out]
    rfl
  rw [insert, absent, stale]
  rfl

namespace EvictionPolicy
variable {σ : Type} [EvictionPolicy σ]

section
variable (stored : σ → Nat → Option Nat)

def besides (s : σ) (id : Nat) : Nat :=
  (account s).occupied - (stored s id).elim 0 (· + (account s).overhead)

/--
A request misses and its footprint is out of range or, if it could fit, either
together with what the other objects take up or in its expiry.
-/
def Unaffordable (s : σ) (req : Request) : Prop :=
  outlook s req ≠ .hit ∧ (¬IsWord (req.size + (account s).overhead) ∨
    req.size + (account s).overhead ≤ (account s).capacity ∧
      (¬IsWord (besides stored s req.id + (req.size + (account s).overhead)) ∨ ¬req.Timely))

/-- A request that cannot be counted or not be afforded. -/
def Overdrawn (s : σ) (req : Request) : Prop :=
  ¬IsWord ((account s).requests + 1) ∨ Unaffordable stored s req

/-- What the answer to a request leaves behind. -/
structure Accommodates (s : σ) (req : Request) (p : Bool × σ) : Prop where
  answer : p.1 = true ↔ outlook s req = .hit
  hit : p.1 = true → stored p.2 = stored s
  /-- An object that can never fit is not cached, and the others are left alone. -/
  rejected : p.1 = false → (account s).capacity < req.size + (account s).overhead →
    stored p.2 = Function.update (stored s) req.id none
  admitted : p.1 = false → req.size + (account s).overhead ≤ (account s).capacity →
    stored p.2 req.id = some req.size
  within : (account p.2).occupied ≤ (account s).capacity
  capacity : (account p.2).capacity = (account s).capacity
  overhead : (account p.2).overhead = (account s).overhead

/-- Serving a request overflows, or does what it should. -/
def Resolves (s : σ) (req : Request) : Prop :=
  Overdrawn stored s req ∧ serve s req = .error .overflow ∨
    ¬Overdrawn stored s req ∧ Yields (serve s req) fun p => Accommodates stored s req p ∧
      (account p.2).requests = (account s).requests + 1

variable {stored}

theorem Accommodates.of_begun {s b : σ} {req : Request} {p : Bool × σ} (h : Accommodates stored b req p)
    (begun : account b = (account s).begun req) (kept : stored b = stored s)
    (same : outlook b req = outlook s req) : Accommodates stored s req p := by
  obtain ⟨answer, hit, rejected, admitted, within, capacity, overhead⟩ := h
  rw [same] at answer
  rw [kept] at hit rejected
  rw [begun] at rejected admitted within capacity overhead
  exact ⟨answer, hit, rejected, admitted, within, capacity, overhead⟩

end

theorem Resolves.wrapped {τ : Type} [EvictionPolicy τ] {wrap : σ → τ} (w : Wraps wrap)
    {stored : σ → Nat → Option Nat} {held : τ → Nat → Option Nat} (same : ∀ s, held (wrap s) = stored s)
    {s : σ} {req : Request} (h : Resolves stored s req) : Resolves held (wrap s) req := by
  have overdrawn : Overdrawn held (wrap s) req ↔ Overdrawn stored s req := by
    unfold Overdrawn Unaffordable besides
    rw [w.account, outlook_wrap w, same]
  unfold Resolves
  rw [overdrawn, w.serve]
  rcases h with ⟨drawn, failed⟩ | ⟨fine, served⟩
  · left
    rw [failed]
    exact ⟨drawn, rfl⟩
  · right
    refine ⟨fine, yields_map (served.mono fun p done => ?_)⟩
    obtain ⟨⟨answer, hit, rejected, admitted, within, capacity, overhead⟩, requests⟩ := done
    rw [w.account, w.account]
    refine ⟨⟨?_, ?_, ?_, ?_, ?_, ?_, ?_⟩, requests⟩
    · rwa [outlook_wrap w]
    · rwa [same, same]
    · rwa [same, same, w.account]
    · rwa [same, w.account]
    · rwa [w.account, w.account]
    · rwa [w.account, w.account]
    · rwa [w.account, w.account]

/--
What the operations of a policy can fail for. `debt` is what the policy counts
beside its account; a look-up may add one to it.
-/
structure Exact (stored : σ → Nat → Option Nat) (debt : σ → Nat) (absent : σ → Nat → Prop)
    (sound : σ → Prop) : Prop where
  debt_withAccount : ∀ (s : σ) (a : Account), debt (withAccount s a) = debt s
  check : ∀ (s : σ) (req : Request), sound s → IsWord (account s).tally →
    Yields (check s req true) fun p => (account s).Sheds (account p.2) ∧ debt p.2 ≤ debt s + 1 ∧
      (p.1 ≠ .hit → stored p.2 = Function.update (stored s) req.id none ∧
        (account p.2).occupied = besides stored s req.id)
  evict : ∀ (s : σ) (req : Request), sound s → IsWord (debt s) →
    Yields (evict s req) fun p => (account s).Sheds (account p.2) ∧ debt p.2 ≤ debt s
  insert : ∀ (s : σ) (req : Request), sound s → absent s req.id →
    (account s).occupied + (req.size + (account s).overhead) ≤ (account s).capacity → req.Timely →
    IsWord ((account s).occupied + (req.size + (account s).overhead)) →
    IsWord ((account s).objects + 1) → Yields (insert s req) fun p =>
      account p.2 = (account s).charged req.size ∧ stored p.2 req.id = some req.size ∧
        debt p.2 ≤ debt s
  insert_overflow : ∀ (s : σ) (req : Request), sound s → absent s req.id → ¬req.Timely →
    EvictionPolicy.insert s req = .error .overflow
  settle : ∀ (s : σ) (hit : Bool), settle s hit = pure s

structure Rest (debt : σ → Nat) (sound : σ → Prop) (s : σ) : Prop where
  sound : sound s
  tally : (account s).tally ≤ (account s).requests
  debt : debt s ≤ (account s).requests
  requests : IsWord (account s).requests

namespace Exact
variable {t : Tolerance} {stored : σ → Nat → Option Nat} {debt : σ → Nat} {caches absent : σ → Nat → Prop}
  {sound : σ → Prop} (x : Exact stored debt absent sound) (d : Dependable t caches absent sound)
include x d

theorem yields_makeRoom {req : Request} {tries : Nat} {s : σ} (hs : sound s)
    (word : IsWord ((account s).occupied + (req.size + (account s).overhead))) (owed : IsWord (debt s)) :
    Yields (makeRoom req tries s) fun p => (account s).Sheds (account p.2) ∧ debt p.2 ≤ debt s := by
  refine d.yields_makeRoom (fun s' => (account s).Sheds (account s') ∧ debt s' ≤ debt s)
    (fun s' _ lean => ?_) (fun s' hs' lean => ?_) tries hs ⟨.refl _, Nat.le_refl _⟩
  · have occupied := lean.1.occupied
    have overhead := lean.1.terms.overhead
    exact word.of_le (by omega)
  · apply (x.evict s' req hs' (owed.of_le lean.2)).mono
    intro p evicted
    exact ⟨lean.1.trans evicted.1, Nat.le_trans evicted.2 lean.2⟩

/-- Room is made and the object admitted, unless its footprint or its expiry is out of range. -/
theorem takeIn_cases {req : Request} {s : σ} (hs : sound s) (missed : absent s req.id)
    (owed : IsWord (debt s)) (count : IsWord ((account s).tally + 1)) :
    let out := ¬IsWord (req.size + (account s).overhead) ∨
      req.size + (account s).overhead ≤ (account s).capacity ∧
        (¬IsWord ((account s).occupied + (req.size + (account s).overhead)) ∨ ¬req.Timely)
    out ∧ takeIn s req = .error .overflow ∨ ¬out ∧ Yields (takeIn s req) fun s' =>
      (account s').tally ≤ (account s).tally + 1 ∧ debt s' ≤ debt s ∧
        ((account s).capacity < req.size + (account s).overhead → s' = s) ∧
        (req.size + (account s).overhead ≤ (account s).capacity → stored s' req.id = some req.size) := by
  intro out
  unfold takeIn
  by_cases bytes : IsWord (req.size + (account s).overhead)
  · rw [Account.admits_of_isWord bytes, ok_bind]
    by_cases small : req.size + (account s).overhead ≤ (account s).capacity
    · rw [if_pos (decide_eq_true small)]
      by_cases word : IsWord ((account s).occupied + (req.size + (account s).overhead))
      · have lean : Yields (makeRoom req (evictable s) s) fun p =>
            (account s).Sheds (account p.2) ∧ debt p.2 ≤ debt s := x.yields_makeRoom d hs word owed
        have made := lean.and (d.settles_makeRoom hs small (Nat.le_refl _))
        obtain ⟨p, e, ⟨shed, less⟩, full, hp, terms, keeps, room⟩ := made
        have occupied := shed.occupied
        have tally := shed.tally
        dsimp only
        rw [e, ok_bind, if_pos full]
        by_cases timely : req.Timely
        · right
          have objects : IsWord ((account p.2).objects + 1) := by
            unfold Account.tally at tally count
            exact count.of_le (by omega)
          have fits : IsWord ((account p.2).occupied + (req.size + (account p.2).overhead)) := by
            rw [terms.overhead]
            exact word.of_le (by omega)
          refine ⟨by simp [out, bytes, word, timely], ?_⟩
          apply yields_bind (x.insert p.2 req hp (keeps _ missed) room timely fits objects)
          intro q inserted
          obtain ⟨charged, placed, owes⟩ := inserted
          refine yields_pure ⟨?_, Nat.le_trans owes less, fun big => absurd small (by omega), fun _ => placed⟩
          rw [charged]
          change (account p.2).objects + 1 + (account p.2).expired ≤ _
          unfold Account.tally at tally ⊢
          omega
        · left
          rw [x.insert_overflow p.2 req hp (keeps _ missed) timely]
          exact ⟨.inr ⟨small, .inr timely⟩, rfl⟩
      · left
        have failed : makeRoom req (evictable s) s = .error .overflow := by
          unfold makeRoom
          rw [Account.needsRoom_overflow word]
          rfl
        dsimp only
        rw [failed]
        exact ⟨.inr ⟨small, .inl word⟩, rfl⟩
    · right
      rw [if_neg (by simpa using small)]
      refine ⟨by simp [out, bytes, small], yields_pure ⟨?_, ?_, fun _ => rfl, fun h => absurd h small⟩⟩
      · omega
      · exact Nat.le_refl _
  · left
    rw [Account.admits, Account.footprint_overflow bytes]
    exact ⟨.inl bytes, rfl⟩

omit d in
theorem serve_eq_answer (s : σ) (req : Request) : serve s req = answer s req := by
  rw [serve_eq]
  simp only [x.settle, pure_bind]
  exact bind_pure (answer s req)

theorem respond_cases (f : Foretells t stored sound) {s : σ} (hs : sound s) (req : Request)
    (tally : (account s).tally + 1 ≤ (account s).requests) (owed : debt s + 1 ≤ (account s).requests)
    (word : IsWord (account s).requests) :
    Unaffordable stored s req ∧ respond s req = .error .overflow ∨
      ¬Unaffordable stored s req ∧ Yields (respond s req) fun p => Accommodates stored s req p ∧
        Rest debt sound p.2 ∧ (account p.2).requests = (account s).requests := by
  have looked := ((x.check s req hs (word.of_le (by omega))).and (f.check s req hs)).and
    (d.check s req true hs)
  obtain ⟨⟨outcome, c⟩, e, ⟨⟨shed, owes, missed⟩, answered, still⟩, hc, same, hit⟩ := looked
  dsimp only at shed owes missed answered still hc same hit
  have fewer := shed.tally
  have requests := same.requests
  have within := same.capacity ▸ d.within c hc
  rw [respond, e, ok_bind]
  dsimp only
  by_cases found : outlook s req = .hit
  · right
    rw [answered, found]
    have resting : Rest debt sound c := ⟨hc, by omega, by omega, by rwa [requests]⟩
    refine ⟨fun out => out.1 found, yields_pure ⟨⟨by simp [found], fun _ => ?_, ?_, ?_, within,
      same.capacity, same.overhead⟩, resting, requests⟩⟩
    · exact (still (answered.trans found)).1
    · exact fun miss => Bool.noConfusion miss
    · exact fun miss => Bool.noConfusion miss
  · have absent := (hit rfl).2 (answered ▸ found)
    obtain ⟨cleared, left⟩ := missed (answered ▸ found)
    have taken := x.takeIn_cases d hc absent (word.of_le (by omega)) (word.of_le (by omega))
    rw [same.overhead, same.capacity, left] at taken
    have missing : Unaffordable stored s req ∧ (do
          let c ← takeIn c req
          pure (false, c)) = .error .overflow ∨
        ¬Unaffordable stored s req ∧ Yields (do
          let c ← takeIn c req
          pure (false, c)) fun p => Accommodates stored s req p ∧ Rest debt sound p.2 ∧
            (account p.2).requests = (account s).requests := by
      rcases taken with ⟨out, failed⟩ | ⟨fine, taken⟩
      · left
        rw [failed]
        exact ⟨⟨found, out⟩, rfl⟩
      · right
        refine ⟨fun out => fine out.2, ?_⟩
        apply yields_bind (taken.and (d.settles_takeIn hc absent))
        intro c' done
        obtain ⟨⟨more, debt', big, small⟩, hc', terms, -⟩ := done
        have capacity := terms.capacity.trans same.capacity
        have requests' := terms.requests.trans requests
        have resting : Rest debt sound c' := ⟨hc', by omega, by omega, by rwa [requests']⟩
        refine yields_pure ⟨⟨by simp [found], ?_, fun _ full => ?_, fun _ => small,
          capacity ▸ d.within c' hc', capacity, terms.overhead.trans same.overhead⟩, resting, requests'⟩
        · exact fun hit => Bool.noConfusion hit
        · rw [← cleared, big full]
    cases outcome with
    | hit => exact absurd answered.symm found
    | miss => exact missing
    | expired => exact missing

/-- Serving a request at rest overflows exactly when it is overdrawn, and else ends at rest. -/
theorem serve_cases (f : Foretells t stored sound) {s : σ} (rest : Rest debt sound s) (req : Request) :
    Overdrawn stored s req ∧ serve s req = .error .overflow ∨
      ¬Overdrawn stored s req ∧ Yields (serve s req) fun p => (Accommodates stored s req p ∧
        (account p.2).requests = (account s).requests + 1) ∧ Rest debt sound p.2 := by
  rw [x.serve_eq_answer, answer]
  by_cases one : IsWord ((account s).requests + 1)
  · rw [Account.begin_of_isWord req one, ok_bind]
    have begun := d.begun s req rest.sound
    have terms := d.account_withAccount s ((account s).begun req)
    have kept := f.stored_withAccount s ((account s).begun req) rest.sound
    have answer := f.outlook_withAccount s ((account s).begun req) req rest.sound
    have owes := x.debt_withAccount s ((account s).begun req)
    generalize withAccount s ((account s).begun req) = b at begun terms kept answer owes ⊢
    have tally := rest.tally
    have debts := rest.debt
    have requests : (account b).requests = (account s).requests + 1 := by rw [terms]; rfl
    have count : (account b).tally = (account s).tally := by rw [terms]; rfl
    have same : Unaffordable stored b req ↔ Unaffordable stored s req := by
      unfold Unaffordable besides
      rw [answer, terms, kept]
      rfl
    have responded := x.respond_cases d f begun req (by omega) (by omega) (by rwa [requests])
    rw [same] at responded
    rcases responded with ⟨out, failed⟩ | ⟨fine, answered⟩
    · exact .inl ⟨.inr out, failed⟩
    · refine .inr ⟨fun drawn => drawn.elim (absurd one) fine, answered.mono fun p done => ?_⟩
      obtain ⟨accommodates, resting, counted⟩ := done
      exact ⟨⟨accommodates.of_begun terms kept answer, counted.trans requests⟩, resting⟩
  · left
    rw [Account.begin_overflow req one]
    exact ⟨.inl one, rfl⟩

theorem rest_of_run (f : Foretells t stored sound) {s s' : σ} (rest : Rest debt sound s)
    {reqs : List Request} (reached : run s (reqs.map .get) = .ok s') : Rest debt sound s' := by
  induction reqs generalizing s with
  | nil =>
    cases reached
    exact rest
  | cons req reqs ih =>
    rw [List.map_cons, run, List.foldlM_cons, perform] at reached
    rcases x.serve_cases d f rest req with ⟨-, failed⟩ | ⟨-, p, served, -, next⟩
    · rw [failed] at reached
      cases reached
    · rw [served] at reached
      exact ih next reached

theorem resolves (f : Foretells t stored sound) {s : σ} (rest : Rest debt sound s) (req : Request) :
    Resolves stored s req := by
  rcases x.serve_cases d f rest req with failed | ⟨fine, served⟩
  · exact .inl failed
  · exact .inr ⟨fine, served.mono fun p done => done.1⟩

end Exact
end EvictionPolicy
end CacheReplay
