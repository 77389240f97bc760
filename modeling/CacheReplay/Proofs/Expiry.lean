import CacheReplay.Proofs.Admission

set_option autoImplicit false

namespace CacheReplay

namespace Account

theorem expired_charge (a : Account) (size : Nat) :
    Settles .any (a.charge size) fun b => b.expired = a.expired := by
  apply (a.settles_charge size).mono
  rintro _ ⟨rfl, -⟩
  rfl

theorem expired_release (a : Account) (size : Nat) :
    Settles .any (a.release size) fun b => b.expired = a.expired := by
  apply settles_bind (settles_any (a.footprint size))
  intro bytes _
  split
  · exact settles_pure rfl
  · trivial

theorem expired_recordExpired (a : Account) :
    Settles .any a.recordExpired fun b => b.expired = a.expired + 1 := by
  apply settles_bind (settles_addWord a.expired 1)
  rintro expired ⟨rfl, -⟩
  exact settles_pure rfl

end Account

/-- The objects that a look-up counts as expired. -/
def Outcome.expiries : Outcome → Nat
  | .expired => 1
  | _ => 0

def EvictionPolicy.finding {σ : Type} [EvictionPolicy σ] (s : σ) (req : Request) : Outcome :=
  match check (withAccount s ((account s).begun req)) req true with
  | .ok p => p.1
  | .error _ => .miss

/-- Only look-ups count objects as expired. -/
structure CountsUp (σ : Type) [EvictionPolicy σ] : Prop where
  begun : ∀ (s : σ) (req : Request),
    (EvictionPolicy.account (EvictionPolicy.withAccount s ((EvictionPolicy.account s).begun req))).expired =
      (EvictionPolicy.account s).expired
  check : ∀ (s : σ) (req : Request), Settles .any (EvictionPolicy.check s req true) fun p =>
    (EvictionPolicy.account p.2).expired = (EvictionPolicy.account s).expired + p.1.expiries
  insert : ∀ (s : σ) (req : Request), Settles .any (EvictionPolicy.insert s req)
    fun p => (EvictionPolicy.account p.2).expired = (EvictionPolicy.account s).expired
  evict : ∀ (s : σ) (req : Request), Settles .any (EvictionPolicy.evict s req)
    fun p => (EvictionPolicy.account p.2).expired = (EvictionPolicy.account s).expired
  settle : ∀ (s : σ) (hit : Bool), Settles .any (EvictionPolicy.settle s hit)
    fun d => (EvictionPolicy.account d).expired = (EvictionPolicy.account s).expired

namespace CountsUp
open EvictionPolicy
variable {σ : Type} [EvictionPolicy σ] (counts : CountsUp σ)
include counts

theorem makeRoom (req : Request) (tries : Nat) (s : σ) : Settles .any (makeRoom req tries s)
    fun p => (account p.2).expired = (account s).expired := by
  induction tries generalizing s with
  | zero =>
    unfold EvictionPolicy.makeRoom
    apply settles_bind (settles_any ((account s).needsRoom req.size))
    intro needs _
    split <;> exact settles_pure rfl
  | succ tries ih =>
    unfold EvictionPolicy.makeRoom
    apply settles_bind (settles_any ((account s).needsRoom req.size))
    intro needs _
    split
    · apply settles_bind (counts.evict s req)
      intro p same
      dsimp only
      split
      · exact (ih p.2).mono fun q later => later.trans same
      · exact settles_pure same
    · exact settles_pure rfl

theorem takeIn (s : σ) (req : Request) : Settles .any (takeIn s req)
    fun d => (account d).expired = (account s).expired := by
  unfold EvictionPolicy.takeIn
  apply settles_bind (settles_any ((account s).admits req.size))
  intro fits _
  split
  · apply settles_bind (counts.makeRoom req (evictable s) s)
    intro p same
    dsimp only
    split
    · exact settles_bind (counts.insert p.2 req) fun q later => settles_pure (later.trans same)
    · exact settles_pure same
  · exact settles_pure rfl

/-- Serving a request counts its object if the look-up found it expired. -/
theorem serve_found (s : σ) (req : Request) : Settles .any (serve s req)
    fun p => (account p.2).expired = (account s).expired + (finding s req).expiries := by
  rw [serve_eq, answer, bind_assoc]
  apply settles_bind ((account s).settles_begin req)
  rintro _ rfl
  have begun := counts.begun s req
  have answered : Settles .any (respond (withAccount s ((account s).begun req)) req) fun p =>
      (account p.2).expired = (account s).expired + (finding s req).expiries := by
    unfold respond
    apply settles_bind (counts.check _ req).eq_ok
    rintro ⟨outcome, c⟩ ⟨looked, checked⟩
    have found : finding s req = outcome := by rw [finding, looked]
    rw [begun] at checked
    have miss : Settles .any (do
        let s ← EvictionPolicy.takeIn c req
        pure (false, s) : Checked (Bool × σ)) fun p =>
          (account p.2).expired = (account s).expired + (finding s req).expiries :=
      settles_bind (counts.takeIn c req) fun d later => settles_pure (found ▸ later.trans checked)
    cases outcome with
    | hit => exact settles_pure (found ▸ checked)
    | miss => exact miss
    | expired => exact miss
  apply settles_bind answered
  intro p more
  exact settles_bind (counts.settle p.2 p.1) fun d later => settles_pure (later.trans more)

theorem serve (s : σ) (req : Request) : Settles .any (serve s req)
    fun p => (account s).expired ≤ (account p.2).expired :=
  (counts.serve_found s req).mono fun _ exact => exact ▸ Nat.le_add_right ..

end CountsUp

namespace ObjectQueue
variable {μ : Type} (q : ObjectQueue μ)

theorem expired_drop (i : Slot) :
    Settles .any (q.drop i) fun q' => q'.account.expired = q.account.expired := by
  unfold drop
  apply settles_bind (settles_any _)
  intro p _
  apply settles_bind (settles_any _)
  intro deleted _
  dsimp only
  split
  · exact settles_ok_bind (settles_pure rfl)
  · exact settles_bind (q.account.expired_release _) fun account same => settles_pure same

theorem expired_expire (i : Slot) :
    Settles .any (q.expire i) fun q' => q'.account.expired = q.account.expired + 1 := by
  apply settles_bind (q.expired_drop i)
  intro q' same
  exact settles_bind q'.account.expired_recordExpired fun account more => settles_pure (same ▸ more)

theorem expired_moveToFront (i : Slot) :
    Settles .any (q.moveToFront i) fun q' => q'.account = q.account :=
  settles_bind (settles_any _) fun _ _ => settles_pure rfl

theorem expired_push (req : Request) (tag : μ) :
    Settles .any (q.push req tag) fun p => p.2.account.expired = q.account.expired := by
  apply settles_bind (settles_any _)
  intro p _
  exact settles_bind (q.account.expired_charge req.size) fun account same => settles_pure same

theorem expired_check {req : Request} {onHit : ObjectQueue μ → Slot → Checked (ObjectQueue μ)}
    (hit : ∀ i, Settles .any (onHit q i) fun q' => q'.account = q.account) :
    Settles .any (q.check req true onHit) fun p =>
      p.2.account.expired = q.account.expired + p.1.expiries := by
  unfold check
  split
  · exact settles_pure rfl
  · exact settles_bind (q.expired_expire _) fun q' more => settles_pure more
  · exact settles_bind (hit _) fun q' same => settles_pure (congrArg Account.expired same)

theorem expired_dropLast :
    Settles .any q.dropLast fun p => p.2.account.expired = q.account.expired := by
  unfold dropLast
  split
  · exact settles_pure rfl
  · exact settles_bind (q.expired_drop _) fun q' same => settles_pure same

end ObjectQueue

theorem Fifo.countsUp : CountsUp Fifo where
  begun _ _ := rfl
  check c _ :=
    settles_bind (c.queue.expired_check fun _ => settles_pure rfl) fun _ more => settles_pure more
  insert c req := settles_bind (c.queue.expired_push req ()) fun _ more => settles_pure more
  evict c _ := settles_bind c.queue.expired_dropLast fun _ more => settles_pure more
  settle _ _ := settles_pure rfl

theorem Lru.countsUp : CountsUp Lru where
  begun _ _ := rfl
  check c req :=
    settles_bind (c.queue.expired_check fun i => (c.queue.touch i req id).expired_moveToFront i)
      fun _ more => settles_pure more
  insert c req := settles_bind (c.queue.expired_push req ()) fun _ more => settles_pure more
  evict c _ := settles_bind c.queue.expired_dropLast fun _ more => settles_pure more
  settle _ _ := settles_pure rfl

namespace Clock

theorem expired_scan (steps : Nat) (c : Clock) :
    Settles .any (scan steps c) fun p => p.2.queue.account.expired = c.queue.account.expired := by
  induction steps generalizing c with
  | zero =>
    unfold scan
    split
    · exact settles_pure rfl
    · split
      · exact settles_bind (c.queue.expired_drop _) fun q same => settles_pure same
      · exact settles_pure rfl
  | succ steps ih =>
    unfold scan
    split
    · exact settles_pure rfl
    · split
      · exact settles_bind (c.queue.expired_drop _) fun q same => settles_pure same
      · dsimp only
        apply settles_bind (ObjectQueue.expired_moveToFront _ _)
        intro q same
        apply settles_bind (settles_any _)
        intro reinserted _
        apply (ih ⟨q, c.maxCount, reinserted⟩).mono
        intro p kept
        rw [kept, same]

theorem countsUp : CountsUp Clock where
  begun _ _ := rfl
  check c _ :=
    settles_bind (c.queue.expired_check fun _ => settles_pure rfl) fun _ more => settles_pure more
  insert c req := settles_bind (c.queue.expired_push req 0) fun _ more => settles_pure more
  evict c _ := expired_scan _ c
  settle _ _ := settles_pure rfl

end Clock

namespace Sieve

theorem expired_drop (c : Sieve) (i : Slot) :
    Settles .any (c.drop i) fun d => d.queue.account.expired = c.queue.account.expired :=
  settles_bind (c.queue.expired_drop i) fun _ same => settles_pure same

theorem expired_sweep (steps : Nat) (c : Sieve) (start : Option Slot) :
    Settles .any (sweep steps c start) fun p =>
      p.2.queue.account.expired = c.queue.account.expired := by
  induction steps generalizing c start with
  | zero =>
    unfold sweep
    split
    · exact settles_pure rfl
    · split
      · exact settles_pure rfl
      · exact settles_bind (ObjectQueue.expired_drop _ _) fun q same => settles_pure same
  | succ steps ih =>
    unfold sweep
    split
    · exact settles_pure rfl
    · split
      · exact ih _ _
      · exact settles_bind (ObjectQueue.expired_drop _ _) fun q same => settles_pure same

theorem expired_check (c : Sieve) (req : Request) :
    Settles .any (c.check req true) fun p =>
      p.2.queue.account.expired = c.queue.account.expired + p.1.expiries := by
  unfold check
  split
  · exact settles_pure rfl
  · apply settles_bind (c.expired_drop _)
    intro d same
    apply settles_bind d.queue.account.expired_recordExpired
    intro account more
    exact settles_pure (same ▸ more)
  · exact settles_pure rfl

theorem countsUp : CountsUp Sieve where
  begun _ _ := rfl
  check := expired_check
  insert c req := settles_bind (c.queue.expired_push req false) fun _ more => settles_pure more
  evict c _ := expired_sweep _ c _
  settle _ _ := settles_pure rfl

end Sieve

namespace Arc
variable (c : Arc)

theorem expired_attach (tier : Tier) (ghost : Bool) (i : Slot) (bytes : Nat) :
    Settles .any (c.attach tier ghost i bytes) fun d => d.account = c.account :=
  settles_bind (settles_any _) fun _ _ => settles_pure (account_withList ..)

theorem expired_detach (tier : Tier) (ghost : Bool) (i : Slot) (bytes : Nat) :
    Settles .any (c.detach tier ghost i bytes) fun d => d.account = c.account :=
  settles_bind (settles_any _) fun _ _ => settles_pure (account_withList ..)

theorem expired_drop (i : Slot) :
    Settles .any (c.drop i) fun d => d.account.expired = c.account.expired := by
  unfold drop
  split
  · exact settles_pure rfl
  · apply settles_bind (settles_any _)
    intro bytes _
    apply settles_bind (c.expired_detach _ _ i bytes)
    intro d same
    apply settles_bind (settles_any _)
    intro deleted _
    dsimp only
    split
    · exact settles_ok_bind (settles_pure (congrArg Account.expired same))
    · exact settles_bind (d.account.expired_release _) fun account kept => settles_pure (same ▸ kept)

theorem expired_demoteLast (tier : Tier) :
    Settles .any (c.demoteLast tier) fun d => d.account.expired = c.account.expired := by
  unfold demoteLast
  split
  · exact settles_pure rfl
  · split
    · exact settles_pure rfl
    · rename_i i _ _ r _
      have rest : ∀ b : Arc, b.account.expired = c.account.expired → Settles .any (do
          let bytes ← b.account.footprint r.size
          let b ← b.detach tier false i bytes
          let b ← b.attach tier true i bytes
          let p ← b.store.demote i
          let account ← b.account.release r.size
          pure { b with store := p.2, account } : Checked Arc)
          fun d => d.account.expired = c.account.expired := by
        intro b kept
        apply settles_bind (settles_any _)
        intro bytes _
        apply settles_bind (b.expired_detach tier false i bytes)
        intro b' same
        apply settles_bind (b'.expired_attach tier true i bytes)
        intro b'' still
        apply settles_bind (settles_any _)
        intro demoted _
        apply settles_bind (b''.account.expired_release r.size)
        intro account released
        exact settles_pure (by rw [released, still, same, kept])
      split
      · exact settles_ok_bind (rest c rfl)
      · exact settles_bind (c.expired_drop _) rest

theorem expired_dropLastGhost (tier : Tier) :
    Settles .any (c.dropLastGhost tier) fun d => d.account.expired = c.account.expired := by
  unfold dropLastGhost
  split
  · exact settles_pure rfl
  · exact c.expired_drop _

theorem expired_step (size : Nat) :
    Settles .any (c.step size) fun d => d.account.expired = c.account.expired := by
  have replaces : ∀ b : Arc, b.account.expired = c.account.expired →
      Settles .any b.replace fun d => d.account.expired = c.account.expired := by
    intro b same
    exact (b.expired_demoteLast b.replaced).mono fun d kept => kept.trans same
  unfold step
  split
  · exact replaces c rfl
  · apply settles_bind (settles_any _)
    intro full _
    split
    · split
      · exact settles_bind (c.expired_dropLastGhost .recent) replaces
      · split
        · exact c.expired_drop _
        · exact replaces c rfl
    · apply settles_bind (settles_any _)
      intro full _
      dsimp only
      split
      · exact settles_bind (c.expired_dropLastGhost .frequent) replaces
      · exact settles_ok_bind (replaces c rfl)

theorem expired_promote (i : Slot) (r : Record Tier) (req : Request) :
    Settles .any (c.promote i r req) fun d => d.account = c.account := by
  unfold promote
  apply settles_bind (settles_any _)
  intro bytes _
  dsimp only
  split
  · apply settles_bind (expired_detach _ .recent false i bytes)
    intro d same
    exact (d.expired_attach .frequent false i bytes).mono fun e kept => kept.trans same
  · exact settles_bind (settles_any _) fun p _ => settles_pure rfl

theorem expired_checkLive (i : Slot) (r : Record Tier) (req : Request) :
    Settles .any (c.checkLive i r req true) fun p =>
      p.2.account.expired = c.account.expired + p.1.expiries := by
  unfold checkLive
  split
  · apply settles_bind (c.expired_drop i)
    intro d same
    apply settles_bind d.account.expired_recordExpired
    intro account more
    rw [same] at more
    exact settles_pure more
  · exact settles_bind (c.expired_promote i r req) fun d same =>
      settles_pure (congrArg Account.expired same)

theorem expired_check (req : Request) : Settles .any (c.check req true) fun p =>
    p.2.account.expired = c.account.expired + p.1.expiries := by
  unfold check
  dsimp only
  split
  · split
    · exact settles_pure rfl
    · exact expired_checkLive _ _ _ req
  · rw [if_pos rfl]
    split
    · exact settles_pure rfl
    · split
      · exact settles_pure rfl
      · exact settles_bind (expired_drop _ _) fun d kept => settles_pure kept

theorem countsUp : CountsUp Arc where
  begun _ _ := rfl
  check := expired_check
  insert c req := by
    apply settles_bind (settles_any _)
    intro bytes _
    apply settles_bind (settles_any _)
    intro p _
    apply settles_bind (expired_attach _ _ false p.1 bytes)
    intro d same
    apply settles_bind (d.account.expired_charge req.size)
    intro account kept
    exact settles_pure (kept.trans (congrArg Account.expired same))
  evict c req := settles_bind (c.expired_step req.size) fun _ same => settles_pure same
  settle _ _ := settles_pure rfl

end Arc

namespace GLCache
open Regression
variable {μ : Type}

namespace Contents
variable (c : Contents)

theorem expired_dropObject (i : Slot) (r : Record ObjectTag) (ghost : Bool) :
    Settles .any (c.dropObject i r ghost) fun d => d.account.expired = c.account.expired :=
  settles_bind (c.account.expired_release r.size) fun _ same =>
    settles_bind (settles_any _) fun _ _ => settles_pure same

theorem expired_retireOrFree (i : Slot) (ghosts : List Slot) (m : Moment) :
    Settles .any (c.retireOrFree i ghosts m) fun d => d.account = c.account := by
  unfold retireOrFree
  dsimp only
  split
  · exact settles_bind (settles_any _) fun table _ => settles_pure rfl
  · exact settles_bind (settles_any _) fun table _ => settles_pure rfl

theorem expired_dropAll (sampled : Bool) (objects : List Slot) :
    Settles .any (dropAll sampled objects c) fun p => p.2.2.account.expired = c.account.expired := by
  induction objects generalizing c with
  | nil => exact settles_pure rfl
  | cons i rest ih =>
    unfold dropAll
    split
    · exact ih c
    · apply settles_bind (c.expired_dropObject i _ _)
      intro d same
      exact settles_bind (ih d) fun p kept => settles_pure (kept.trans same)

theorem expired_evictSegment (i : Slot) (m : Moment) :
    Settles .any (c.evictSegment i m) fun p => p.2.account.expired = c.account.expired := by
  unfold evictSegment
  split
  · exact settles_pure rfl
  · apply settles_bind (expired_dropAll _ _ _)
    intro p same
    apply settles_bind (p.2.2.expired_retireOrFree i p.2.1 m)
    intro d kept
    exact settles_pure (by rw [kept, same])

end Contents

namespace Merging
variable (g : Merging)

theorem expired_move (i : Slot) (r : Record ObjectTag) :
    Settles .any (g.move i r) fun h => h.contents.account = g.contents.account := by
  apply settles_bind (settles_any _)
  intro doubled _
  apply settles_bind (settles_any _)
  intro bytes _
  exact settles_bind (settles_any _) fun keptBytes _ => settles_pure rfl

theorem expired_sift (sampled : Bool) (i : Slot) : Settles .any (g.sift sampled i) fun p =>
    p.2.contents.account.expired = g.contents.account.expired := by
  unfold sift
  dsimp only
  split
  · exact settles_pure rfl
  · split
    · exact settles_bind (expired_move _ i _) fun h same =>
        settles_pure (congrArg Account.expired same)
    · exact settles_bind (Contents.expired_dropObject _ i _ _) fun d same => settles_pure same

theorem expired_siftAll (sampled : Bool) (objects : List Slot) :
    Settles .any (siftAll sampled objects g) fun p =>
      p.2.contents.account.expired = g.contents.account.expired := by
  induction objects generalizing g with
  | nil => exact settles_pure rfl
  | cons i rest ih =>
    apply settles_bind (g.expired_sift sampled i)
    intro p same
    exact settles_bind (ih p.2) fun q kept => settles_pure (kept.trans same)

theorem expired_absorb (parent : Slot) (m : Moment) : Settles .any (g.absorb parent m) fun h =>
    h.contents.account.expired = g.contents.account.expired := by
  unfold absorb
  split
  · exact settles_pure rfl
  · apply settles_bind (expired_siftAll _ _ _)
    intro p same
    apply settles_bind (p.2.contents.expired_retireOrFree parent p.1 m)
    intro contents kept
    exact settles_pure (by rw [kept, same])

end Merging

theorem Contents.expired_merge (c : Contents) (parents : List Slot) (scores : List Float)
    (cutoff : Float) (m : Moment) : Settles .any (c.merge parents scores cutoff m) fun p =>
      p.2.account.expired = c.account.expired := by
  have opened : Settles .any (c.openTarget parents m) fun p => p.2.account = c.account := by
    apply settles_bind (settles_any _)
    intro bucket _
    apply settles_bind (settles_any _)
    intro p _
    exact settles_bind (settles_any _) fun merges _ => settles_pure rfl
  apply settles_bind opened
  intro p same
  have absorbed : Settles .any (parents.foldlM (fun g parent => Merging.absorb g parent m)
      ⟨p.2, p.1, cutoff, scores, #[], 0, 0, 0⟩) fun g => g.contents.account.expired = c.account.expired := by
    apply settles_foldlM
    · exact congrArg Account.expired same
    · exact fun g kept parent _ => (g.expired_absorb parent m).mono fun h now => now.trans kept
  exact settles_bind absorbed fun g kept => settles_pure kept

namespace Cache
variable (c : Cache μ)

theorem expired_creditSegment (segment : Slot) (size : Nat) :
    Settles .any (c.creditSegment segment size) fun d => d.account = c.account := by
  unfold creditSegment
  split
  · exact settles_bind (settles_any _) fun p _ => settles_pure rfl
  · exact settles_pure rfl

theorem expired_creditGhost (id : Nat) :
    Settles .any (c.creditGhost id) fun d => d.account = c.account := by
  unfold creditGhost
  split
  · exact settles_pure rfl
  · dsimp only
    split
    · exact settles_bind (c.expired_creditSegment _ _) fun d same =>
        settles_bind (settles_any _) fun _ _ => settles_pure same
    · exact settles_ok_bind (settles_bind (settles_any _) fun _ _ => settles_pure rfl)

theorem expired_hit (req : Request) (i : Slot) (r : Record ObjectTag) :
    Settles .any (c.hit req i r) fun d => d.account = c.account := by
  unfold hit
  dsimp only
  split
  · exact settles_pure rfl
  · exact settles_bind (settles_any _) fun counted _ => expired_creditSegment _ _ _

theorem expired_check (req : Request) : Settles .any (c.check req true) fun p =>
    p.2.account.expired = c.account.expired + p.1.expiries := by
  unfold check
  split
  · exact settles_bind (c.expired_creditGhost req.id) fun d same =>
      settles_pure (congrArg Account.expired same)
  · rw [if_pos rfl]
    split
    · exact settles_pure rfl
    · apply settles_bind (c.expired_hit req _ _)
      intro d same
      exact settles_bind (d.expired_creditGhost req.id) fun e kept =>
        settles_pure (congrArg Account.expired (kept.trans same))

theorem expired_insert (req : Request) : Settles .any (c.insert req) fun p =>
    p.2.account.expired = c.account.expired := by
  apply settles_bind (settles_any _)
  intro opened _
  apply settles_bind (settles_any _)
  intro stored _
  apply settles_bind (settles_any _)
  intro footprint _
  apply settles_bind (settles_any _)
  intro bytes _
  exact settles_bind (c.account.expired_charge req.size) fun account same => settles_pure same

theorem expired_choose [Regressor μ] : Settles .any c.choose fun p => p.2.account = c.account := by
  unfold choose
  dsimp only
  split
  · exact settles_pure rfl
  · exact settles_pure rfl
  · exact settles_pure rfl
  · exact settles_bind (settles_any _) fun table _ => settles_pure rfl

theorem expired_evict [Regressor μ] : Settles .any c.evict fun p =>
    p.2.account.expired = c.account.expired := by
  apply settles_bind c.expired_choose
  rintro ⟨choice, d⟩ same
  dsimp only at same ⊢
  rw [← same]
  split
  · exact settles_pure rfl
  · rename_i run
    have ran : Settles .any (d.evictRun run) fun e => e.account.expired = d.account.expired := by
      apply settles_bind (settles_any _)
      intro exact _
      apply settles_bind (settles_any _)
      intro bar _
      apply settles_bind (d.contents.expired_merge run _ bar d.moment)
      intro merged kept
      exact settles_bind (settles_any _) fun tally _ => settles_pure kept
    exact settles_bind ran fun e kept => settles_pure kept
  · rename_i i
    have single : Settles .any (d.evictSingle i) fun e => e.account.expired = d.account.expired := by
      apply settles_bind (settles_any _)
      intro notice _
      apply settles_bind (d.contents.expired_evictSegment i d.moment)
      intro evicted kept
      exact settles_bind (settles_any _) fun tally _ => settles_pure kept
    exact settles_bind single fun e kept => settles_pure kept

theorem expired_snapshot : Settles .any c.snapshot fun d => d.account = c.account := by
  have sampled : Settles .any (c.learner.snapshot c.contents c.moment c.labelling)
      fun p => p.2.account = c.account :=
    settles_bind (settles_any _) fun picked _ => settles_pure rfl
  exact settles_bind sampled fun p same => settles_pure same

theorem account_clearQuarantine (c : Contents) :
    Settles .any c.clearQuarantine fun d => d.account = c.account := by
  have freed : Settles .any ((c.table.chainOf quarantine).foldlM Contents.freeQuarantined c)
      fun d => d.account = c.account :=
    settles_foldlM rfl fun b same i _ => settles_bind (settles_any _) fun store _ => settles_pure same
  exact settles_bind freed fun d same => settles_pure same

theorem expired_learn [Regressor μ] : Settles .any c.learn fun d => d.account = c.account := by
  apply settles_bind (settles_any _)
  intro step _
  cases step with
  | wait => exact settles_pure rfl
  | firstSnapshot => exact expired_snapshot _
  | retrain =>
    have trained : Settles .any (c.learner.train c.contents c.account.clock)
        fun p => p.2.account = c.account := by
      apply settles_bind (settles_any _)
      intro data _
      apply settles_bind (account_clearQuarantine c.contents)
      intro d same
      apply settles_bind (settles_any _)
      rintro ⟨result, model⟩ _
      cases result with
      | ok u => exact settles_pure same
      | error e => exact settles_pure same
    apply settles_bind trained
    intro p same
    exact (expired_snapshot _).mono fun d kept => kept.trans same

theorem countsUp [Regressor μ] : CountsUp (Cache μ) where
  begun _ _ := rfl
  check := expired_check
  insert := expired_insert
  evict c _ := c.expired_evict
  settle c hit := by
    have recorded : ∀ d : Cache μ, d.account = c.account → Settles .any (do
        let load ← d.load.record hit d.moment
        pure { d with load } : Checked (Cache μ)) fun e => e.account.expired = c.account.expired :=
      fun d same => settles_bind (settles_any _) fun load _ => settles_pure (congrArg Account.expired same)
    show Settles .any (c.settle hit) _
    unfold settle
    dsimp only
    split
    · exact settles_bind c.expired_learn recorded
    · exact recorded c rfl

end Cache
end GLCache

namespace AnyCache
open Regression
variable {μ : Type} [Regressor μ]

theorem expired_query {α : Type} (gain : α → Nat)
    (f : {σ : Type} → [EvictionPolicy σ] → σ → Checked (α × σ)) (c : AnyCache μ)
    (h : ∀ {σ : Type} [EvictionPolicy σ], CountsUp σ → ∀ s : σ, Settles .any (f s) fun p =>
      (EvictionPolicy.account p.2).expired = (EvictionPolicy.account s).expired + gain p.1) :
    Settles .any (c.query f) fun p =>
      (EvictionPolicy.account p.2).expired = (EvictionPolicy.account c).expired + gain p.1 := by
  cases c with
  | fifo c => exact settles_map (h Fifo.countsUp c)
  | lru c => exact settles_map (h Lru.countsUp c)
  | clock c => exact settles_map (h Clock.countsUp c)
  | sieve c => exact settles_map (h Sieve.countsUp c)
  | arc c => exact settles_map (h Arc.countsUp c)
  | glcache c => exact settles_map (h GLCache.Cache.countsUp c)

theorem countsUp : CountsUp (AnyCache μ) where
  begun c req := by rw [account_withAccount]; rfl
  check c req := c.expired_query Outcome.expiries _ fun counts s => counts.check s req
  insert c req := c.expired_query (fun _ => 0) _ fun counts s => counts.insert s req
  evict c req := c.expired_query (fun _ => 0) _ fun counts s => counts.evict s req
  settle c hit := by
    apply settles_bind (c.expired_query (fun _ => 0) _ fun counts s =>
      settles_bind (counts.settle s hit) fun d same => settles_pure same)
    exact fun p same => settles_pure same

end AnyCache
end CacheReplay
