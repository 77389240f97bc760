import CacheReplay.Proofs.Admission
import CacheReplay.Proofs.Arc.Bytes

set_option autoImplicit false

namespace CacheReplay

namespace Store
variable {μ : Type}

def stored (s : Store μ) (id : Nat) : Option Nat := (s.findRecord? id).map (·.size)

theorem stored_same {s s' : Store μ} (index : s'.index = s.index)
    (same : s.records.Same (·.size) s'.records) : s'.stored = s.stored := by
  funext id
  unfold stored findRecord? find?
  rw [index]
  cases s.index[id]?.bind IndexEntry.live with
  | none => rfl
  | some i => exact same i

theorem stored_relinked {s : Store μ} {records : Arena (Record μ)}
    (same : s.records.Same bare records) : Store.stored { s with records } = s.stored :=
  stored_same rfl (same.of_comp (·.size) fun _ => rfl)

theorem stored_modify (s : Store μ) (i : Slot) {f : Record μ → Record μ}
    (hf : ∀ r, (f r).size = r.size) : (s.modify i f).stored = s.stored :=
  stored_same rfl (Arena.same_modify s.records i fun r _ => hf r)

theorem Consistent.stored_eq_some_iff {s : Store μ} (h : s.Consistent) (id n : Nat) :
    s.stored id = some n ↔ ∃ i r, s.live? i = some r ∧ r.id = id ∧ r.size = n := by
  unfold stored findRecord?
  rw [Option.map_eq_some_iff]
  constructor
  · rintro ⟨r, found, size⟩
    obtain ⟨i, hi, hr⟩ := Option.bind_eq_some_iff.mp found
    obtain ⟨u, hu, hid, live⟩ := (h.find?_eq_some_iff id i).mp hi
    cases hr.symm.trans hu
    exact ⟨i, r, (s.live?_eq_some_iff i r).mpr ⟨hr, live⟩, hid, size⟩
  · rintro ⟨i, r, alive, hid, size⟩
    obtain ⟨hr, live⟩ := (s.live?_eq_some_iff i r).mp alive
    have hi := (h.find?_eq_some_iff id i).mpr ⟨r, hr, hid, live⟩
    exact ⟨r, Option.bind_eq_some_iff.mpr ⟨i, hi, hr⟩, size⟩

theorem Consistent.stored_congr {s s' : Store μ} (h : s.Consistent) (h' : s'.Consistent)
    (live : ∀ i, s'.live? i = s.live? i) : s'.stored = s.stored := by
  funext id
  apply Option.ext
  intro n
  rw [h.stored_eq_some_iff, h'.stored_eq_some_iff]
  simp only [live]

end Store

namespace EvictionPolicy
variable {σ : Type} [EvictionPolicy σ] {t : Tolerance} {caches absent : σ → Nat → Prop}
  {stored : σ → Nat → Option Nat} {sound : σ → Prop}

/-- What a look-up without an update answers. -/
def outlook (s : σ) (req : Request) : Outcome :=
  match check s req false with
  | .ok p => p.1
  | .error _ => .miss

theorem outlook_of_check {s s' : σ} {req : Request} {o : Outcome} (e : check s req false = .ok (o, s')) :
    outlook s req = o := by
  rw [outlook, e]

theorem outlook_wrap {τ : Type} [EvictionPolicy τ] {wrap : σ → τ} (w : Wraps wrap) (s : σ)
    (req : Request) : outlook (wrap s) req = outlook s req := by
  unfold outlook
  rw [w.check]
  cases check s req false <;> rfl

/-- A look-up without an update answers what the one with an update does, which moves nothing on a hit. -/
structure Foretells (t : Tolerance) (stored : σ → Nat → Option Nat) (sound : σ → Prop) : Prop where
  stored_withAccount : ∀ (s : σ) (a : Account), sound s → stored (withAccount s a) = stored s
  outlook_withAccount : ∀ (s : σ) (a : Account) (req : Request), sound s →
    outlook (withAccount s a) req = outlook s req
  peek : ∀ (s : σ) (req : Request), sound s → check s req false = .ok (outlook s req, s)
  check : ∀ (s : σ) (req : Request), sound s → Settles t (check s req true) fun p =>
    p.1 = outlook s req ∧ (p.1 = .hit → stored p.2 = stored s ∧ account p.2 = account s)
  settle : ∀ (s : σ) (hit : Bool), sound s → Settles t (settle s hit) fun s' =>
    stored s' = stored s ∧ account s' = account s

/-- A look-up that reads its answer off the state, apart from the account. -/
theorem foretells_of_outcome (outcome : σ → Request → Outcome)
    (peek : ∀ (s : σ) (req : Request), check s req false = .ok (outcome s req, s))
    (blind : ∀ (s : σ) (a : Account) (req : Request), outcome (withAccount s a) req = outcome s req)
    (kept : ∀ (s : σ) (a : Account), stored (withAccount s a) = stored s)
    (check : ∀ (s : σ) (req : Request), sound s → Settles t (check s req true) fun p =>
      p.1 = outcome s req ∧ (p.1 = .hit → stored p.2 = stored s ∧ account p.2 = account s))
    (settle : ∀ (s : σ) (hit : Bool), sound s → Settles t (settle s hit) fun s' =>
      stored s' = stored s ∧ account s' = account s) : Foretells t stored sound := by
  have outlook_eq : ∀ (s : σ) (req : Request), outlook s req = outcome s req :=
    fun s req => outlook_of_check (peek s req)
  constructor
  · exact fun s a _ => kept s a
  · intro s a req _
    rw [outlook_eq, outlook_eq, blind]
  · intro s req _
    rw [outlook_eq, peek]
  · intro s req hs
    rw [outlook_eq]
    exact check s req hs
  · exact settle

namespace Foretells
variable (f : Foretells t stored sound) (d : Dependable t caches absent sound)
include f

theorem run_peeks {s : σ} (hs : sound s) (reqs : List Request) :
    run s (reqs.map (.check · false)) = .ok s := by
  induction reqs with
  | nil => rfl
  | cons req reqs ih =>
    have looked : perform s (.check req false) = .ok s := by
      rw [perform, f.peek s req hs]
      rfl
    rw [List.map_cons, run, List.foldlM_cons, looked, ok_bind]
    exact ih

include d

theorem settles_serve {s : σ} (hs : sound s) (req : Request) :
    Settles t (serve s req) fun p => (p.1 = true ↔ outlook s req = .hit) ∧
      (p.1 = true → stored p.2 = stored s ∧ account p.2 = (account s).begun req) := by
  rw [serve]
  apply settles_bind ((account s).settles_begin req)
  intro begun e
  subst e
  have hb := d.begun s req hs
  have counted := d.account_withAccount s ((account s).begun req)
  have kept := f.stored_withAccount s ((account s).begun req) hs
  have answer := f.outlook_withAccount s ((account s).begun req) req hs
  generalize withAccount s ((account s).begun req) = b at hb counted kept answer ⊢
  -- A miss says so, whatever is admitted then.
  have missed : ∀ c : σ, sound c → absent c req.id → outlook s req ≠ .hit → Settles t (do
      let c ← takeIn c req
      pure (false, c) : Checked (Bool × σ)) fun p => sound p.2 ∧ (p.1 = true ↔ outlook s req = .hit) ∧
        (p.1 = true → stored p.2 = stored s ∧ account p.2 = (account s).begun req) := by
    intro c hc free miss
    apply settles_bind (d.settles_takeIn hc free)
    intro e taken
    exact settles_pure ⟨taken.1, by simp [miss], fun hit => Bool.noConfusion hit⟩
  have responded : Settles t (respond b req) fun p => sound p.2 ∧ (p.1 = true ↔ outlook s req = .hit) ∧
      (p.1 = true → stored p.2 = stored s ∧ account p.2 = (account s).begun req) := by
    apply settles_bind ((d.check b req true hb).and (f.check b req hb))
    intro p looked
    obtain ⟨⟨hp, -, found⟩, same, still⟩ := looked
    obtain ⟨outcome, c⟩ := p
    dsimp only at hp found same still ⊢
    rw [answer] at same
    cases outcome with
    | hit =>
      obtain ⟨all, account⟩ := still rfl
      exact settles_pure ⟨hp, by simp [← same], fun _ => ⟨all.trans kept, account.trans counted⟩⟩
    | miss => exact missed c hp ((found rfl).2 Outcome.noConfusion) (by simp [← same])
    | expired => exact missed c hp ((found rfl).2 Outcome.noConfusion) (by simp [← same])
  apply settles_bind responded
  intro p done
  obtain ⟨hp, answered, still⟩ := done
  apply settles_bind (f.settle p.2 p.1 hp)
  intro c settled
  refine settles_pure ⟨answered, fun hit => ?_⟩
  exact ⟨settled.1.trans (still hit).1, settled.2.trans (still hit).2⟩

omit d

theorem wrapped {τ : Type} [EvictionPolicy τ] {wrap : σ → τ} {held : τ → Nat → Option Nat}
    (w : Wraps wrap) (same : ∀ s, held (wrap s) = stored s) :
    Foretells t held fun x => ∃ s, x = wrap s ∧ sound s := by
  constructor
  · rintro x a ⟨s, rfl, hs⟩
    rw [w.withAccount, same, same]
    exact f.stored_withAccount s a hs
  · rintro x a req ⟨s, rfl, hs⟩
    rw [w.withAccount, outlook_wrap w, outlook_wrap w]
    exact f.outlook_withAccount s a req hs
  · rintro x req ⟨s, rfl, hs⟩
    rw [w.check, outlook_wrap w, f.peek s req hs]
    rfl
  · rintro x req ⟨s, rfl, hs⟩
    rw [w.check, outlook_wrap w]
    apply settles_map
    apply (f.check s req hs).mono
    intro p looked
    rw [same, same, w.account, w.account]
    exact looked
  · rintro x hit ⟨s, rfl, hs⟩
    rw [w.settle]
    apply settles_map
    apply (f.settle s hit hs).mono
    intro s' settled
    rw [same, same, w.account, w.account]
    exact settled

end Foretells
end EvictionPolicy

open EvictionPolicy

/-- What a client is told. -/
def Lookup.outcome : Lookup → Outcome
  | .found _ => .hit
  | .expired _ => .expired
  | .missing => .miss

namespace ObjectQueue
variable {μ : Type} {t : Tolerance} {q : ObjectQueue μ}

theorem peek (req : Request) (onHit : ObjectQueue μ → Slot → Checked (ObjectQueue μ)) :
    q.check req false onHit = .ok ((q.lookup req).outcome, q) := by
  unfold check
  cases q.lookup req <;> rfl

theorem stored_touch (i : Slot) (req : Request) (f : μ → μ) :
    (q.touch i req f).store.stored = q.store.stored :=
  q.store.stored_modify i fun _ => rfl

theorem settles_moveToFront_stored (i : Slot) : Settles t (q.moveToFront i) fun q' =>
    q'.store.stored = q.store.stored ∧ q'.account = q.account := by
  apply settles_bind (Chain.settles_moveToFront_same q.order q.store.records i)
  intro p same
  exact settles_pure ⟨Store.stored_relinked same, rfl⟩

theorem Holds.settles_check_foretold {s : List Slot} (h : q.Holds s) (req : Request)
    {onHit : ObjectQueue μ → Slot → Checked (ObjectQueue μ)}
    (touch : ∀ i, Settles t (onHit q i) fun q' =>
      q'.store.stored = q.store.stored ∧ q'.account = q.account) :
    Settles t (q.check req true onHit) fun p => p.1 = (q.lookup req).outcome ∧
      (p.1 = .hit → p.2.store.stored = q.store.stored ∧ p.2.account = q.account) := by
  unfold check
  rcases h.lookup req with ⟨e, -⟩ | ⟨i, r, hr, -, -, e | e⟩
  · rw [e]
    exact settles_pure ⟨rfl, nofun⟩
  · rw [e]
    apply settles_bind (touch i)
    intro q' still
    exact settles_pure ⟨rfl, fun _ => still⟩
  · rw [e]
    apply settles_bind (h.settles_expire hr)
    intro q' _
    exact settles_pure ⟨rfl, nofun⟩

end ObjectQueue

section
variable {t : Tolerance}

theorem Fifo.foretells : Foretells t (fun c : Fifo => c.queue.store.stored)
    fun c => c.queue.Kept fun _ => True := by
  apply foretells_of_outcome fun c req => (c.queue.lookup req).outcome
  case peek =>
    intro c req
    change Fifo.check c req false = _
    rw [Fifo.check, ObjectQueue.peek]
    rfl
  case blind => exact fun _ _ _ => rfl
  case kept => exact fun _ _ => rfl
  case check =>
    intro c req k
    obtain ⟨s, h⟩ := k.holds
    have touch : ∀ i, Settles t (pure (c.queue.touch i req id) : Checked _) fun q =>
        q.store.stored = c.queue.store.stored ∧ q.account = c.queue.account :=
      fun i => settles_pure ⟨ObjectQueue.stored_touch i req id, rfl⟩
    exact settles_bind (h.settles_check_foretold req touch) fun p told => settles_pure told
  case settle => exact fun _ _ _ => settles_pure ⟨rfl, rfl⟩

theorem Lru.foretells : Foretells t (fun c : Lru => c.queue.store.stored)
    fun c => c.queue.Kept fun _ => True := by
  apply foretells_of_outcome fun c req => (c.queue.lookup req).outcome
  case peek =>
    intro c req
    change Lru.check c req false = _
    rw [Lru.check, ObjectQueue.peek]
    rfl
  case blind => exact fun _ _ _ => rfl
  case kept => exact fun _ _ => rfl
  case check =>
    intro c req k
    obtain ⟨s, h⟩ := k.holds
    have touch : ∀ i, Settles t ((c.queue.touch i req id).moveToFront i) fun q =>
        q.store.stored = c.queue.store.stored ∧ q.account = c.queue.account := by
      intro i
      rw [← ObjectQueue.stored_touch i req id]
      exact ObjectQueue.settles_moveToFront_stored i
    exact settles_bind (h.settles_check_foretold req touch) fun p told => settles_pure told
  case settle => exact fun _ _ _ => settles_pure ⟨rfl, rfl⟩

theorem Clock.foretells : Foretells t (fun c : Clock => c.queue.store.stored) Clock.Sound := by
  apply foretells_of_outcome fun c req => (c.queue.lookup req).outcome
  case peek =>
    intro c req
    change Clock.check c req false = _
    rw [Clock.check]
    dsimp only
    rw [ObjectQueue.peek]
    rfl
  case blind => exact fun _ _ _ => rfl
  case kept => exact fun _ _ => rfl
  case check =>
    intro c req k
    obtain ⟨s, h⟩ := k.holds
    have touch : ∀ i, Settles t (pure (c.queue.touch i req fun n => min (n + 1) c.maxCount) : Checked _)
        fun q => q.store.stored = c.queue.store.stored ∧ q.account = c.queue.account :=
      fun i => settles_pure ⟨ObjectQueue.stored_touch i req _, rfl⟩
    exact settles_bind (h.settles_check_foretold req touch) fun p told => settles_pure told
  case settle => exact fun _ _ _ => settles_pure ⟨rfl, rfl⟩

theorem Sieve.foretells : Foretells t (fun c : Sieve => c.queue.store.stored) Sieve.Sound := by
  apply foretells_of_outcome fun c req => (c.queue.lookup req).outcome
  case peek =>
    intro c req
    change Sieve.check c req false = _
    unfold Sieve.check
    cases c.queue.lookup req <;> rfl
  case blind => exact fun _ _ _ => rfl
  case kept => exact fun _ _ => rfl
  case check =>
    intro c req k
    obtain ⟨s, h⟩ := k.kept.holds
    change Settles t (Sieve.check c req true) _
    unfold Sieve.check
    rcases h.lookup req with ⟨e, -⟩ | ⟨i, r, hr, -, -, e | e⟩
    · rw [e]
      exact settles_pure ⟨rfl, nofun⟩
    · rw [e]
      exact settles_pure ⟨rfl, fun _ => ⟨ObjectQueue.stored_touch i req _, rfl⟩⟩
    · rw [e]
      apply settles_bind (Sieve.settles_drop k hr)
      intro c' _
      apply settles_bind (Account.settles_recordExpired c'.queue.account)
      intro account _
      exact settles_pure ⟨rfl, nofun⟩
  case settle => exact fun _ _ _ => settles_pure ⟨rfl, rfl⟩

namespace Arc
variable (c : Arc) (k : Tier × Bool) (i : Slot)

theorem stored_withList (l : SizedChain) {records : Arena (Record Tier)}
    (same : c.store.records.Same bare records) :
    ({ c with store := { c.store with records } }.withList l k.1 k.2).store.stored = c.store.stored := by
  rw [store_withList]
  exact Store.stored_relinked same

theorem settles_detach_stored (n : Nat) : Settles t (c.detach k.1 k.2 i n) fun d =>
    d.store.stored = c.store.stored ∧ d.account = c.account := by
  apply settles_bind ((c.list k.1 k.2).settles_detach_same c.store.records i n)
  intro p done
  exact settles_pure ⟨c.stored_withList k p.1 done.2, account_withList ..⟩

theorem settles_attach_stored (n : Nat) : Settles t (c.attach k.1 k.2 i n) fun d =>
    d.store.stored = c.store.stored ∧ d.account = c.account := by
  apply settles_bind ((c.list k.1 k.2).settles_attach_same c.store.records i n)
  intro p done
  exact settles_pure ⟨c.stored_withList k p.1 done.2.2, account_withList ..⟩

theorem settles_promote_stored (r : Record Tier) (req : Request) :
    Settles t (c.promote i r req) fun d =>
      d.store.stored = c.store.stored ∧ d.account = c.account := by
  unfold promote
  apply settles_bind (Account.settles_footprint c.account r.size)
  intro bytes _
  dsimp only
  have touched : (c.store.modify i fun r =>
      { r.touch req c.account.now with tag := Tier.frequent }).stored = c.store.stored :=
    c.store.stored_modify i fun _ => rfl
  rw [← touched]
  generalize (c.store.modify i fun r =>
    { r.touch req c.account.now with tag := Tier.frequent }) = store
  cases r.tag with
  | recent =>
    apply settles_bind (settles_detach_stored { c with store } (.recent, false) i bytes)
    intro d out
    apply (settles_attach_stored d (.frequent, false) i bytes).mono
    intro e moved
    exact ⟨moved.1.trans out.1, moved.2.trans out.2⟩
  | frequent =>
    apply settles_bind (Chain.settles_moveToFront_same c.t2.order store.records i)
    intro p same
    exact settles_pure ⟨Store.stored_relinked same, rfl⟩

def found (req : Request) : Outcome :=
  match (c.store.find? req.id).bind c.store.get? with
  | none => .miss
  | some r => if r.expiredAt req.time then .expired else .hit

theorem peek (req : Request) : c.check req false = .ok (c.found req, c) := by
  simp only [check, Bool.false_eq_true, if_false, found]
  cases c.store.find? req.id with
  | none => rfl
  | some i =>
    rw [Option.bind_some]
    dsimp only
    cases c.store.get? i with
    | none => rfl
    | some r =>
      simp only [checkLive, Bool.false_eq_true, if_false]
      split <;> rfl

theorem Sound.settles_check_found {c : Arc} (h : c.Sound) (req : Request) :
    Settles t (c.check req true) fun p => p.1 = c.found req ∧
      (p.1 = .hit → p.2.store.stored = c.store.stored ∧ p.2.account = c.account) := by
  simp only [check, if_true, found]
  have sound : Sound { c with ghostHit := none } := h.recount c.account rfl rfl rfl rfl c.target none
  cases live : c.store.find? req.id with
  | none =>
    rw [Option.bind_none]
    dsimp only
    cases lost : c.store.findGhost? req.id with
    | none => exact settles_pure ⟨rfl, Outcome.noConfusion⟩
    | some i =>
      obtain ⟨r, hr, hid, -⟩ := (h.consistent.findGhost?_eq_some_iff req.id i).mp lost
      dsimp only
      rw [hr]
      rw [← hid] at live lost
      apply settles_bind (sound.settles_revive hr live lost)
      intro d _
      exact settles_pure ⟨rfl, Outcome.noConfusion⟩
  | some i =>
    obtain ⟨r, hr, -, -⟩ := (h.consistent.find?_eq_some_iff req.id i).mp live
    rw [Option.bind_some]
    dsimp only
    rw [hr]
    simp only [checkLive, if_true]
    split
    · apply settles_bind (sound.settles_drop hr)
      intro d _
      apply settles_bind (Account.settles_recordExpired d.account)
      intro account _
      exact settles_pure ⟨rfl, Outcome.noConfusion⟩
    · apply settles_bind (settles_promote_stored { c with ghostHit := none } i r req)
      intro d still
      exact settles_pure ⟨rfl, fun _ => still⟩

theorem foretells : Foretells t (fun c : Arc => c.store.stored) Sound := by
  apply foretells_of_outcome found
  case peek => exact peek
  case blind => exact fun _ _ _ => rfl
  case kept => exact fun _ _ => rfl
  case check => exact fun c req h => h.settles_check_found req
  case settle => exact fun _ _ _ => settles_pure ⟨rfl, rfl⟩

end Arc

namespace GLCache.Cache
open Regression
variable {μ : Type}

def found (c : Cache μ) (req : Request) : Outcome :=
  if c.contents.store.caches req.id then .hit else .miss

theorem peek (c : Cache μ) (req : Request) : c.check req false = .ok (c.found req, c) := by
  unfold check found Store.caches
  cases c.contents.store.find? req.id <;> rfl

theorem Sound.settles_check_found {c : Cache μ} (h : c.Sound) (req : Request) :
    Settles t (c.check req true) fun p => p.1 = c.found req ∧
      (p.1 = .hit → p.2.contents.store.stored = c.contents.store.stored ∧ p.2.account = c.account) := by
  unfold check found Store.caches
  cases live : c.contents.store.find? req.id with
  | none =>
    apply settles_bind (h.settles_creditGhost req.id)
    intro d _
    exact settles_pure ⟨rfl, Outcome.noConfusion⟩
  | some i =>
    obtain ⟨r, hr, -, alive⟩ := (h.contents.ledger.consistent.find?_eq_some_iff req.id i).mp live
    dsimp only
    rw [hr, if_pos rfl]
    apply settles_bind (h.settles_hit req ((c.contents.store.live?_eq_some_iff i r).mpr ⟨hr, alive⟩))
    intro d hit
    obtain ⟨sound, account, -, store, -⟩ := hit
    apply settles_bind (sound.settles_creditGhost req.id)
    intro e credited
    have settled := credited.1
    refine settles_pure ⟨rfl, fun _ => ⟨?_, settled.account.trans account⟩⟩
    rw [sound.contents.ledger.consistent.stored_congr settled.sound.contents.ledger.consistent settled.live,
      store]
    exact Store.stored_modify _ i fun _ => rfl

variable [Regressor μ]

theorem foretells (fits : ∀ (m : μ) (d : TrainingData) (f : Fault), Regressor.fit m d = .error f → t.allows f) :
    Foretells t (fun c : Cache μ => c.contents.store.stored) Sound := by
  apply foretells_of_outcome found
  case peek => exact peek
  case blind => exact fun _ _ _ => rfl
  case kept => exact fun _ _ => rfl
  case check => exact fun c req h => h.settles_check_found req
  case settle =>
    intro c hit h
    apply (h.settles_settle fits hit).mono
    intro d settled
    have consistent := h.contents.ledger.consistent
    exact ⟨consistent.stored_congr settled.sound.contents.ledger.consistent settled.live, settled.account⟩

end GLCache.Cache
end

namespace AnyCache
open Regression
variable {μ : Type} [Regressor μ]

def stored : AnyCache μ → Nat → Option Nat
  | fifo c => c.queue.store.stored
  | lru c => c.queue.store.stored
  | clock c => c.queue.store.stored
  | sieve c => c.queue.store.stored
  | arc c => c.store.stored
  | glcache c => c.contents.store.stored

theorem exists_foretelling {σ : Type} [EvictionPolicy σ] {t : Tolerance} {wrap : σ → AnyCache μ} {s : σ}
    {cached absent : σ → Nat → Prop} {kept : σ → Nat → Option Nat} {good : σ → Prop} (wraps : Wraps wrap)
    (policy : Dependable t cached absent good) (foretells : Foretells t kept good)
    (same : ∀ s id, (wrap s).caches id = true ↔ cached s id)
    (missed : ∀ s id, (wrap s).lacks id ↔ absent s id) (sizes : ∀ s, (wrap s).stored = kept s)
    (hs : good s) : ∃ sound : AnyCache μ → Prop,
      Dependable t (fun c id => c.caches id = true) lacks sound ∧ Foretells t stored sound ∧ sound (wrap s) :=
  ⟨_, policy.wrapped wraps account_withAccount same missed, foretells.wrapped wraps sizes, s, rfl, hs⟩

theorem Fresh.foretells {c : AnyCache μ} (fresh : c.Fresh) : ∃ sound : AnyCache μ → Prop,
    Dependable (.ofModel μ) (fun c id => c.caches id = true) lacks sound ∧
      Foretells (.ofModel μ) stored sound ∧ sound c := by
  cases fresh with
  | fifo capacity overhead =>
    exact exists_foretelling (wraps_of_passes (fun _ _ => rfl) (fun _ _ => rfl) fun _ _ => rfl)
      Fifo.dependable Fifo.foretells (fun _ _ => .rfl) (fun _ _ => .rfl) (fun _ => rfl)
      (ObjectQueue.kept_empty _ capacity overhead)
  | lru capacity overhead =>
    exact exists_foretelling (wraps_of_passes (fun _ _ => rfl) (fun _ _ => rfl) fun _ _ => rfl)
      Lru.dependable Lru.foretells (fun _ _ => .rfl) (fun _ _ => .rfl) (fun _ => rfl)
      (ObjectQueue.kept_empty _ capacity overhead)
  | clock _ _ _ accepted =>
    exact exists_foretelling (wraps_of_passes (fun _ _ => rfl) (fun _ _ => rfl) fun _ _ => rfl)
      Clock.dependable Clock.foretells (fun _ _ => .rfl) (fun _ _ => .rfl) (fun _ => rfl)
      (Clock.sound_of_withBits accepted)
  | sieve capacity overhead =>
    exact exists_foretelling (wraps_of_passes (fun _ _ => rfl) (fun _ _ => rfl) fun _ _ => rfl)
      Sieve.dependable Sieve.foretells (fun _ _ => .rfl) (fun _ _ => .rfl) (fun _ => rfl)
      (Sieve.sound_empty capacity overhead)
  | arc capacity overhead =>
    exact exists_foretelling (wraps_of_passes (fun _ _ => rfl) (fun _ _ => rfl) fun _ _ => rfl)
      Arc.dependable Arc.foretells (fun _ _ => .rfl) (fun _ _ => .rfl) (fun _ => rfl)
      (Arc.sound_empty capacity overhead)
  | glcache capacity overhead model accepted =>
    exact exists_foretelling (wraps_of_passes (fun _ _ => rfl) (fun _ _ => rfl) fun _ _ => rfl)
      (GLCache.Cache.dependable Tolerance.allows_of_fit) (GLCache.Cache.foretells Tolerance.allows_of_fit)
      (fun _ _ => .rfl) (fun _ _ => .rfl) (fun _ => rfl)
      (GLCache.Cache.sound_ofConfig capacity overhead model accepted)

/-- What is cached, and at which sizes, has not changed; nor has what the account says of it. -/
structure Unmoved (d e : AnyCache μ) : Prop where
  stored : e.stored = d.stored
  objects : (account e).objects = (account d).objects
  occupied : (account e).occupied = (account d).occupied
  expired : (account e).expired = (account d).expired

/--
Whatever a run has done before, a look-up without an update changes nothing, and
the next request finds its object if and only if that look-up does; then it moves
nothing, whatever size it asks for and whatever is learned from it.
-/
theorem run_foretells {c : AnyCache μ} (fresh : c.Fresh) (ops : List Operation) :
    Settles (.ofModel μ) (run c ops) fun d =>
      (∀ looks : List Request, run d (looks.map (.check · false)) = .ok d) ∧
        ∀ req : Request, ∃ o, check d req false = .ok (o, d) ∧
          Settles (.ofModel μ) (serve d req) fun p =>
            (p.1 = true ↔ o = .hit) ∧ (p.1 = true → Unmoved d p.2) := by
  obtain ⟨sound, dependable, foretells, hc⟩ := fresh.foretells
  apply (dependable.settles_run c ops hc).mono
  intro d hd
  refine ⟨foretells.run_peeks hd, fun req => ⟨_, foretells.peek d req hd, ?_⟩⟩
  apply (foretells.settles_serve dependable hd req).mono
  intro p served
  refine ⟨served.1, fun hit => ?_⟩
  obtain ⟨sizes, counted⟩ := served.2 hit
  constructor
  · exact sizes
  · rw [counted]
    rfl
  · rw [counted]
    rfl
  · rw [counted]
    rfl

theorem run_foretells_ghosts : Yields (run (.arc (.empty 20 2) : AnyCache Boosted)
    [.get (.ofId 1 10 0), .get (.ofId 2 9 1), .check (.ofId 1 3 2) true, .get (.ofId 1 4 2)]) fun d =>
      (∀ looks : List Request, run d (looks.map (.check · false)) = .ok d) ∧
        ∀ req : Request, ∃ o, check d req false = .ok (o, d) ∧
          Settles (.ofModel Boosted) (serve d req) fun p =>
            (p.1 = true ↔ o = .hit) ∧ (p.1 = true → Unmoved d p.2) := by
  have answers := yields_of_toOption (x := run (.arc (.empty 20 2) : AnyCache Boosted)
    [.get (.ofId 1 10 0), .get (.ofId 2 9 1), .check (.ofId 1 3 2) true, .get (.ofId 1 4 2)])
    (f := fun d => (account d).objects) (b := 2) (by cbv)
  exact (answers.and (run_foretells (.arc 20 2) _)).mono fun _ done => done.2

end AnyCache
end CacheReplay
