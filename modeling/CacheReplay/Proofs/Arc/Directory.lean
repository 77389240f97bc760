import CacheReplay.Proofs.Arc.Coherence

set_option autoImplicit false

namespace CacheReplay.Arc

/-- Every object takes up one byte and never expires. -/
structure Uniform (c : Arc) : Prop where
  overhead : c.account.overhead = 0
  unit : ∀ i r, c.store.get? i = some r → r.size = 1 ∧ r.expiry = none

theorem Uniform.inherit {c d : Arc} (u : c.Uniform) (overhead : d.account.overhead = c.account.overhead)
    (records : c.store.Inherits d.store) : d.Uniform where
  overhead := overhead.trans u.overhead
  unit i r hr := by
    obtain ⟨v, hv, size, expiry⟩ := records i r hr
    rw [← size, ← expiry]
    exact u.unit i v hv

/-- One byte goes from one list to another, or leaves or enters the cache. -/
structure Trades (c : Arc) (source target : Option (Tier × Bool)) (d : Arc) : Prop where
  bytes : ∀ m, d.bytesOf m + (if source = some m then 1 else 0) =
    c.bytesOf m + (if target = some m then 1 else 0)
  ghostHit : d.ghostHit = c.ghostHit

theorem Trades.remake {c d : Arc} {source target : Option (Tier × Bool)} (h : c.Trades source target d)
    (account : Account) (store : Store Tier) :
    c.Trades source target { d with account, store } where
  bytes m := by
    rw [bytesOf_mk]
    exact h.bytes m
  ghostHit := h.ghostHit

theorem settles_move_trades (c : Arc) {k m : Tier × Bool} (apart : k ≠ m) (i : Slot) :
    Settles .any (c.detach k.1 k.2 i 1 >>= fun d => d.attach m.1 m.2 i 1)
      (c.Trades (some k) (some m)) := by
  apply settles_bind (settles_detach_bytes c k i 1)
  intro d detached
  obtain ⟨left, split, lost⟩ := detached
  apply (settles_attach_bytes d m i 1).mono
  intro e attached
  obtain ⟨-, gained⟩ := attached
  constructor
  · intro n
    rw [gained.bytes, lost.bytes, lost.bytes]
    by_cases hk : n = k
    · subst hk
      simp [apart, apart.symm]
      omega
    · by_cases hm : n = m
      · subst hm
        simp [hk, Ne.symm hk]
      · simp [hk, hm, Ne.symm hk, Ne.symm hm]
  · rw [gained.ghostHit, lost.ghostHit]

theorem Uniform.settles_drop_trades {c : Arc} (u : c.Uniform) {i : Slot} {r : Record Tier}
    (hr : c.store.get? i = some r) :
    Settles .any (c.drop i) (c.Trades (some r.place) none) := by
  unfold drop
  rw [hr]
  apply settles_bind (Account.settles_footprint c.account r.size)
  intro bytes hbytes
  obtain ⟨rfl, -⟩ := hbytes
  rw [(u.unit i r hr).1, u.overhead]
  apply settles_bind (settles_detach_bytes c r.place i 1)
  intro d detached
  obtain ⟨left, split, lost⟩ := detached
  have traded : c.Trades (some r.place) none d := by
    constructor
    · intro m
      rw [lost.bytes]
      by_cases same : m = r.place
      · subst same
        simp
        omega
      · simp [same, Ne.symm same]
    · exact lost.ghostHit
  apply settles_bind (settles_any (d.store.delete i))
  intro gone _
  dsimp only
  split
  · exact settles_pure (traded.remake _ _)
  · apply settles_bind (settles_any _)
    intro account _
    exact settles_pure (traded.remake _ _)

theorem settles_recentFull {t : Tolerance} (c : Arc) (size : Nat) :
    Settles t (c.recentFull size) fun full =>
      full = decide (c.account.capacity < c.t1.bytes + c.b1.bytes + (size + c.account.overhead)) := by
  apply settles_bind (settles_addWord _ _)
  intro known hknown
  apply settles_bind (Account.settles_footprint c.account size)
  intro bytes hbytes
  apply settles_bind (settles_addWord _ _)
  intro wanted hwanted
  apply settles_pure
  rw [hwanted.1, hknown.1, hbytes.1]

theorem settles_directoryFull {t : Tolerance} (c : Arc) :
    Settles t c.directoryFull fun full => full = decide (2 * c.account.capacity ≤ c.total) := by
  apply settles_bind (settles_addWord _ _)
  intro first hfirst
  apply settles_bind (settles_addWord _ _)
  intro second hsecond
  apply settles_bind (settles_addWord _ _)
  intro sum hsum
  apply settles_bind (settles_mulWord _ _)
  intro limit hlimit
  apply settles_pure
  rw [hlimit, hsum.1, hsecond.1, hfirst.1]
  rfl

namespace Sound
variable {c : Arc} (h : c.Sound)
include h

theorem exists_back {k : Tier × Bool} (pos : 0 < c.bytesOf k) :
    ∃ i r, (c.list k.1 k.2).order.back = some i ∧ c.store.get? i = some r ∧ r.place = k := by
  obtain ⟨seqs, L⟩ := h.lists
  have rep := L.family.represents k
  have bytes := L.bytes k
  rw [bytesOf, bytes] at pos
  cases back : (c.list k.1 k.2).order.back with
  | none =>
    have nil : seqs k = [] := List.getLast?_eq_none_iff.mp (rep.back_eq ▸ back)
    rw [nil] at pos
    exact absurd pos (Nat.lt_irrefl 0)
  | some i =>
    have hi : i ∈ seqs k := List.mem_of_getLast? (rep.back_eq ▸ back)
    obtain ⟨r, hr, place⟩ := (L.mem_iff k i).mp hi
    exact ⟨i, r, rfl, hr, place⟩

variable (u : c.Uniform)
include u

theorem settles_dropLastGhost_trades {tier : Tier} (pos : 0 < c.bytesOf (tier, true)) :
    Settles .any (c.dropLastGhost tier) (c.Trades (some (tier, true)) none) := by
  obtain ⟨i, r, back, hr, place⟩ := h.exists_back pos
  unfold dropLastGhost
  rw [show (c.list tier true).order.back = some i from back, ← place]
  exact u.settles_drop_trades hr

theorem settles_demoteLast_trades {tier : Tier} (pos : 0 < c.bytesOf (tier, false)) :
    Settles .any (c.demoteLast tier) (c.Trades (some (tier, false)) (some (tier, true))) := by
  obtain ⟨i, r, back, hr, place⟩ := h.exists_back pos
  have live : r.ghost = false := congrArg Prod.snd place
  unfold demoteLast
  simp only [show (c.list tier false).order.back = some i from back, hr, h.findGhost?_of_live hr live]
  rw [pure_bind]
  apply settles_bind (Account.settles_footprint c.account r.size)
  intro bytes hbytes
  obtain ⟨rfl, -⟩ := hbytes
  rw [(u.unit i r hr).1, u.overhead, ← bind_assoc]
  apply settles_bind (settles_move_trades c (k := (tier, false)) (m := (tier, true)) (by simp) i)
  intro d traded
  apply settles_bind (settles_any (d.store.demote i))
  intro freed _
  apply settles_bind (settles_any _)
  intro account _
  exact settles_pure (traded.remake _ _)

end Sound

theorem Uniform.settles_promote_trades {c : Arc} (u : c.Uniform) {i : Slot} {r : Record Tier}
    (req : Request) (hr : c.store.get? i = some r) : Settles .any (c.promote i r req) fun d =>
      c.Trades none none d ∨ c.Trades (some (.recent, false)) (some (.frequent, false)) d := by
  unfold promote
  apply settles_bind (Account.settles_footprint c.account r.size)
  intro bytes hbytes
  obtain ⟨rfl, -⟩ := hbytes
  rw [(u.unit i r hr).1, u.overhead]
  dsimp only
  split
  · apply (settles_move_trades _ (k := (.recent, false)) (m := (.frequent, false)) (by simp) i).mono
    intro d traded
    right
    constructor
    · intro m
      rw [traded.bytes, bytesOf_mk]
    · exact traded.ghostHit
  · apply settles_bind (settles_any _)
    intro p _
    apply settles_pure
    left
    constructor
    · intro m
      obtain ⟨tier, ghost⟩ := m
      cases tier <;> cases ghost <;> rfl
    · rfl

/-- The bounds that hold between requests. -/
structure Bounds (capacity : Nat) (c : Arc) : Prop where
  cached : c.t1.bytes + c.t2.bytes ≤ capacity
  recent : c.t1.bytes + c.b1.bytes ≤ capacity
  listed : c.t1.bytes + c.t2.bytes + c.b1.bytes + c.b2.bytes ≤ 2 * capacity
  ghosts : 0 < c.b1.bytes + c.b2.bytes → c.t1.bytes + c.t2.bytes = capacity

/-- The bounds after an object was missed; if it was a ghost, that one is gone. -/
structure Missed (capacity : Nat) (c : Arc) : Prop where
  bounds : c.Bounds capacity
  slack : c.ghostHit.isSome = true → c.total + 1 ≤ 2 * capacity ∧ c.t1.bytes + c.t2.bytes = capacity

/-- The bounds when there is room for the missed object. -/
structure Poised (capacity : Nat) (c : Arc) : Prop where
  cached : c.t1.bytes + c.t2.bytes + 1 ≤ capacity
  recent : c.t1.bytes + c.b1.bytes ≤ capacity
  fresh : c.ghostHit = none → c.t1.bytes + c.b1.bytes + 1 ≤ capacity
  listed : c.total + 1 ≤ 2 * capacity
  ghosts : 0 < c.b1.bytes + c.b2.bytes → c.t1.bytes + c.t2.bytes + 1 = capacity

/-- The bounds of a full cache that may give up an object for the missed one. -/
structure Trimmed (capacity : Nat) (c : Arc) : Prop where
  full : c.t1.bytes + c.t2.bytes = capacity
  recent : c.t1.bytes + c.b1.bytes ≤ capacity
  fresh : c.ghostHit = none → c.t1.bytes + c.b1.bytes + 1 ≤ capacity
  listed : c.total + 1 ≤ 2 * capacity

theorem Trades.counts {c d : Arc} {source target : Option (Tier × Bool)} (h : c.Trades source target d) :
    d.t1.bytes + (if source = some (.recent, false) then 1 else 0) =
      c.t1.bytes + (if target = some (.recent, false) then 1 else 0) ∧
    d.t2.bytes + (if source = some (.frequent, false) then 1 else 0) =
      c.t2.bytes + (if target = some (.frequent, false) then 1 else 0) ∧
    d.b1.bytes + (if source = some (.recent, true) then 1 else 0) =
      c.b1.bytes + (if target = some (.recent, true) then 1 else 0) ∧
    d.b2.bytes + (if source = some (.frequent, true) then 1 else 0) =
      c.b2.bytes + (if target = some (.frequent, true) then 1 else 0) :=
  ⟨h.bytes (.recent, false), h.bytes (.frequent, false), h.bytes (.recent, true),
    h.bytes (.frequent, true)⟩

theorem Bounds.promoted {capacity : Nat} {c d : Arc} (b : c.Bounds capacity)
    (h : c.Trades none none d ∨ c.Trades (some (.recent, false)) (some (.frequent, false)) d) :
    d.Bounds capacity := by
  obtain ⟨cached, recent, listed, ghosts⟩ := b
  rcases h with moved | moved
  all_goals
    have counts := moved.counts
    simp at counts
    constructor <;> omega

theorem Bounds.revived {capacity : Nat} {c d : Arc} {r : Record Tier} {target : Float}
    (b : c.Bounds capacity) (ghost : r.ghost = true)
    (traded : Trades { c with ghostHit := some r.tag, target } (some r.place) none d) :
    d.Missed capacity := by
  obtain ⟨cached, recent, listed, ghosts⟩ := b
  have counts := traded.counts
  have sum : d.total = d.t1.bytes + d.t2.bytes + d.b1.bytes + d.b2.bytes := rfl
  rw [Record.place, ghost] at counts
  cases tag : r.tag
  all_goals
    simp [tag] at counts
    refine ⟨?_, fun _ => ?_⟩
    · constructor <;> omega
    · constructor <;> omega

theorem Missed.poised {capacity : Nat} {c : Arc} (m : c.Missed capacity)
    (room : c.t1.bytes + c.t2.bytes + 1 ≤ capacity) : c.Poised capacity := by
  obtain ⟨⟨cached, recent, listed, ghosts⟩, -⟩ := m
  have sum : c.total = c.t1.bytes + c.t2.bytes + c.b1.bytes + c.b2.bytes := rfl
  constructor <;> omega

theorem Missed.trimmed {capacity : Nat} {c d : Arc} {side : Tier} (m : c.Missed capacity)
    (full : c.t1.bytes + c.t2.bytes = capacity)
    (slack : side = .recent ∨ c.t1.bytes + c.b1.bytes + 1 ≤ capacity)
    (lost : c.Trades (some (side, true)) none d) : d.Trimmed capacity := by
  obtain ⟨⟨cached, recent, listed, ghosts⟩, -⟩ := m
  have counts := lost.counts
  have sum : d.total = d.t1.bytes + d.t2.bytes + d.b1.bytes + d.b2.bytes := rfl
  cases side
  all_goals
    simp at counts slack
    constructor <;> omega

theorem Trimmed.replaced {capacity : Nat} {c d : Arc} {side : Tier} (k : c.Trimmed capacity)
    (moved : c.Trades (some (side, false)) (some (side, true)) d) : d.Poised capacity := by
  obtain ⟨full, recent, fresh, listed⟩ := k
  have counts := moved.counts
  have sum : c.total = c.t1.bytes + c.t2.bytes + c.b1.bytes + c.b2.bytes := rfl
  have sum' : d.total = d.t1.bytes + d.t2.bytes + d.b1.bytes + d.b2.bytes := rfl
  rw [← moved.ghostHit] at fresh
  cases side
  all_goals
    simp at counts
    constructor
    · omega
    · omega
    · intro none
      have := fresh none
      omega
    · omega
    · omega

theorem Poised.admitted {capacity : Nat} {c d : Arc} {req : Request} (k : c.Poised capacity)
    (bytes : req.size + c.account.overhead = 1) (admitted : c.Admitted req d) : d.Bounds capacity := by
  obtain ⟨cached, recent, fresh, listed, ghosts⟩ := k
  have t1 : d.t1.bytes = _ := admitted.bytes (.recent, false)
  have t2 : d.t2.bytes = _ := admitted.bytes (.frequent, false)
  have b1 : d.b1.bytes = _ := admitted.bytes (.recent, true)
  have b2 : d.b2.bytes = _ := admitted.bytes (.frequent, true)
  have sum : c.total = c.t1.bytes + c.t2.bytes + c.b1.bytes + c.b2.bytes := rfl
  rw [bytes] at t1 t2 b1 b2
  unfold landing at t1 t2 b1 b2
  cases hit : c.ghostHit with
  | none =>
    have fresh := fresh hit
    simp [hit, bytesOf, list] at t1 t2 b1 b2
    constructor <;> omega
  | some tier =>
    simp [hit, bytesOf, list] at t1 t2 b1 b2
    constructor <;> omega

namespace Sound
variable {c : Arc} (h : c.Sound) (u : c.Uniform)
include h u

theorem settles_replace_poised {capacity : Nat} (k : c.Trimmed capacity) (pos : 0 < c.account.occupied) :
    Settles .any c.replace (Poised capacity) := by
  apply (h.settles_demoteLast_trades u (h.replaced_pos pos)).mono
  intro d moved
  exact k.replaced moved

/-- A step of replacement in a full cache makes room for the missed object. -/
theorem settles_step_poised {capacity : Nat} (terms : c.account.capacity = capacity)
    (m : c.Missed capacity) (full : c.t1.bytes + c.t2.bytes = capacity) (pos : 0 < capacity) :
    Settles .any (c.step 1) (Poised capacity) := by
  have occupied := h.occupied_eq
  have sum : c.total = c.t1.bytes + c.t2.bytes + c.b1.bytes + c.b2.bytes := rfl
  -- A list of ghosts with too many of them loses one before the replacement.
  have trimmed : ∀ tier, 0 < c.bytesOf (tier, true) →
      tier = .recent ∨ c.t1.bytes + c.b1.bytes + 1 ≤ capacity → Settles .any (do
        let d ← c.dropLastGhost tier
        d.replace) (Poised capacity) := by
    intro tier some spare
    apply settles_bind (((h.settles_dropLastGhost_trades u some).and
      (h.settles_dropLastGhost (t := .any) tier)).and (Carries.dropLastGhost c tier))
    intro d done
    obtain ⟨⟨traded, sound, account, -⟩, carried⟩ := done
    have uniform := u.inherit (by rw [account]) carried.records
    exact sound.settles_replace_poised uniform (m.trimmed full spare traded) (by rw [account]; omega)
  obtain ⟨⟨cached, recent, listed, ghosts⟩, slack⟩ := m
  unfold step
  split
  · rename_i hit
    obtain ⟨spare, -⟩ := slack hit
    apply h.settles_replace_poised u _ (by omega)
    refine ⟨full, recent, fun none => ?_, spare⟩
    rw [none] at hit
    cases hit
  · apply settles_bind (c.settles_recentFull 1)
    intro crowded hcrowded
    rw [terms, u.overhead] at hcrowded
    split
    · rename_i yes
      have crowded : capacity < c.t1.bytes + c.b1.bytes + (1 + 0) := by simpa [yes] using hcrowded
      split
      · rename_i some
        exact trimmed .recent some (.inl rfl)
      · obtain ⟨i, r, back, hr, place⟩ := h.exists_back (k := (.recent, false)) (by
          change 0 < c.t1.bytes
          omega)
        rw [show c.t1.order.back = some i from back]
        apply (u.settles_drop_trades hr).mono
        intro d traded
        rw [place] at traded
        have counts := traded.counts
        have sum' : d.total = d.t1.bytes + d.t2.bytes + d.b1.bytes + d.b2.bytes := rfl
        simp at counts
        constructor <;> omega
    · rename_i no
      have loose : c.t1.bytes + c.b1.bytes + 1 ≤ capacity := by
        simpa [no] using hcrowded
      apply settles_bind c.settles_directoryFull
      intro packed hpacked
      rw [terms] at hpacked
      dsimp only
      split
      · rename_i both
        have some : 0 < c.b2.bytes := by
          simp at both
          exact both.2
        exact trimmed .frequent some (.inr loose)
      · rename_i neither
        apply h.settles_replace_poised u _ (by omega)
        refine ⟨full, recent, fun _ => loose, ?_⟩
        simp [hpacked] at neither
        omega

theorem settles_check_bounds {capacity : Nat} (b : c.Bounds capacity) (req : Request) :
    Settles .any (c.check req true) fun p =>
      (p.1 = .hit → p.2.Bounds capacity) ∧ (p.1 ≠ .hit → p.2.Missed capacity) := by
  have forgotten : ({ c with ghostHit := none } : Arc).Missed capacity := by
    refine ⟨⟨b.cached, b.recent, b.listed, b.ghosts⟩, fun hit => ?_⟩
    cases hit
  have sound := h.recount c.account rfl rfl rfl rfl c.target none
  have uniform : ({ c with ghostHit := none } : Arc).Uniform := ⟨u.overhead, u.unit⟩
  unfold check
  rw [if_pos rfl]
  generalize ({ c with ghostHit := none } : Arc) = d at forgotten sound uniform ⊢
  dsimp only
  cases found : d.store.find? req.id with
  | some i =>
    obtain ⟨r, hr, -, -⟩ := (sound.consistent.find?_eq_some_iff req.id i).mp found
    have fresh : ¬r.expiredAt req.time = true := by
      rw [Record.expiredAt, (uniform.unit i r hr).2]
      exact Bool.false_ne_true
    simp only [hr]
    unfold checkLive
    rw [if_neg fresh, if_pos rfl]
    apply settles_bind (uniform.settles_promote_trades req hr)
    intro e moved
    exact settles_pure ⟨fun _ => forgotten.bounds.promoted moved, fun miss => absurd rfl miss⟩
  | none =>
    dsimp only
    rw [if_pos rfl]
    cases lost : d.store.findGhost? req.id with
    | none =>
      refine settles_pure ⟨fun hit => ?_, fun _ => forgotten⟩
      cases hit
    | some i =>
      obtain ⟨r, hr, -, ghost⟩ := (sound.consistent.findGhost?_eq_some_iff req.id i).mp lost
      have adapted : ({ d with ghostHit := some r.tag, target := d.adapted r.tag } : Arc).Uniform :=
        ⟨uniform.overhead, uniform.unit⟩
      simp only [hr]
      apply settles_bind (adapted.settles_drop_trades hr)
      intro e traded
      refine settles_pure ⟨fun hit => ?_, fun _ => forgotten.bounds.revived ghost traded⟩
      cases hit

end Sound

open EvictionPolicy

/-- What holds between requests for objects of one byte. -/
structure Standing (capacity : Nat) (c : Arc) : Prop where
  uniform : c.Uniform
  bounds : c.Bounds capacity

theorem settles_makeRoom_poised {capacity : Nat} {c : Arc} (h : c.Sound)
    (terms : c.account.capacity = capacity) (u : c.Uniform) (m : c.Missed capacity) {req : Request}
    (size : req.size = 1) (pos : 0 < capacity) :
    Settles .any (makeRoom req (evictable c) c) fun p => p.2.Uniform ∧ p.2.Poised capacity := by
  have occupied := h.occupied_eq
  have overhead := u.overhead
  by_cases full : c.t1.bytes + c.t2.bytes = capacity
  · have objects := (dependable (t := .any)).evictable c h (by change 0 < c.account.occupied; omega)
    obtain ⟨tries, htries⟩ : ∃ tries, evictable c = tries + 1 := ⟨evictable c - 1, by omega⟩
    rw [htries]
    apply settles_makeRoom_evict objects.1
    · change c.account.capacity < c.account.occupied + (req.size + c.account.overhead)
      omega
    have stepped : Settles .any (EvictionPolicy.evict c req) fun p => p.2.Poised capacity := by
      apply settles_bind (size ▸ h.settles_step_poised u terms m full pos)
      intro d poised
      exact settles_pure poised
    apply (((dependable (t := .any)).evict c req h).and (stepped.and (Carries.evict c req))).mono
    intro p evicted
    obtain ⟨⟨sound, same, -, succeeds, -⟩, poised, carried⟩ := evicted
    have uniform := u.inherit same.overhead carried.records
    have sum := sound.occupied_eq
    have cached := poised.cached
    have zero := uniform.overhead
    have limit : p.2.account.capacity = capacity := same.capacity.trans terms
    refine ⟨succeeds (by change 0 < c.account.occupied; omega), ?_⟩
    apply (settles_makeRoom_idle (s := p.2) tries ?_).mono
    · intro q e
      subst e
      exact ⟨uniform, poised⟩
    · change p.2.account.occupied + (req.size + p.2.account.overhead) ≤ p.2.account.capacity
      omega
  · have room : c.account.occupied + (req.size + c.account.overhead) ≤ c.account.capacity := by
      have cached := m.bounds.cached
      omega
    apply (settles_makeRoom_idle (s := c) _ room).mono
    intro p e
    subst e
    exact ⟨u, m.poised (by omega)⟩

theorem settles_takeIn_standing {capacity : Nat} {c : Arc} (h : c.Sound)
    (terms : c.account.capacity = capacity) (u : c.Uniform) (m : c.Missed capacity) {req : Request}
    (size : req.size = 1) (forever : req.ttl = none) (missed : c.absent req.id) :
    Settles .any (takeIn c req) (Standing capacity) := by
  have overhead := u.overhead
  unfold takeIn
  apply settles_bind (c.account.settles_admits req.size)
  intro fits hfits
  by_cases small : req.size + c.account.overhead ≤ c.account.capacity
  · rw [if_pos (hfits.mpr small)]
    apply settles_bind (((dependable (t := .any)).settles_makeRoom h small (Nat.le_refl _)).and
      (settles_makeRoom_poised h terms u m size (by omega)))
    intro p made
    obtain ⟨⟨full, sound, -, keeps, -⟩, uniform, poised⟩ := made
    dsimp only
    rw [if_pos full]
    apply settles_bind (sound.settles_insert_admitted (keeps _ missed))
    intro q admitted
    have one : req.size + p.2.account.overhead = 1 := by rw [uniform.overhead, size]
    refine settles_pure ⟨⟨?_, fun i r hr => ?_⟩, poised.admitted one admitted⟩
    · rw [admitted.account]
      exact uniform.overhead
    · rcases admitted.records i r hr with ⟨v, hv, same, expiry⟩ | fresh
      · rw [← same, ← expiry]
        exact uniform.unit i v hv
      · rw [fresh.1, fresh.2, size, forever]
        exact ⟨rfl, rfl⟩
  · rw [if_neg (mt hfits.mp small)]
    exact settles_pure ⟨u, m.bounds⟩

theorem settles_answer_standing {capacity : Nat} {c : Arc} (h : c.Sound)
    (terms : c.account.capacity = capacity) (k : c.Standing capacity) {req : Request}
    (size : req.size = 1) (forever : req.ttl = none) :
    Settles .any (answer c req) fun p => p.2.Standing capacity := by
  unfold answer
  apply settles_bind (c.account.settles_begin req)
  intro account e
  subst e
  have begun := (dependable (t := .any)).begun c req h
  have standing : ({ c with account := c.account.begun req } : Arc).Standing capacity :=
    ⟨⟨k.uniform.overhead, k.uniform.unit⟩, ⟨k.bounds.cached, k.bounds.recent, k.bounds.listed, k.bounds.ghosts⟩⟩
  have terms : ({ c with account := c.account.begun req } : Arc).account.capacity = capacity := terms
  change Settles _ (respond ({ c with account := c.account.begun req } : Arc) req) _
  change ({ c with account := c.account.begun req } : Arc).Sound at begun
  generalize ({ c with account := c.account.begun req } : Arc) = b at begun standing terms ⊢
  unfold respond
  have looked := ((dependable (t := .any)).check b req true begun).and
    ((begun.settles_check_bounds standing.uniform standing.bounds req).and
      (begun.settles_check_carries req true))
  apply settles_bind looked
  intro p done
  obtain ⟨⟨sound, same, known⟩, ⟨hit, miss⟩, carried⟩ := done
  have uniform := standing.uniform.inherit same.overhead carried.records
  have missed : p.1 ≠ .hit → Settles .any (do
      let s ← takeIn p.2 req
      pure (false, s)) fun q => q.2.Standing capacity := by
    intro no
    apply settles_bind (settles_takeIn_standing sound (same.capacity.trans terms) uniform (miss no)
      size forever ((known rfl).2 no))
    intro e stands
    exact settles_pure stands
  obtain ⟨outcome, d⟩ := p
  cases outcome with
  | hit => exact settles_pure ⟨uniform, hit rfl⟩
  | miss => exact missed nofun
  | expired => exact missed nofun

/-- The bounds on the four lists, whose counters show how many records they have. -/
structure Directory (capacity : Nat) (c : Arc) : Prop extends Bounds capacity c where
  counts : ∀ tier ghost, (c.list tier ghost).bytes = (c.slots tier ghost).length

theorem Standing.directory {capacity : Nat} {c : Arc} (k : c.Standing capacity) (h : c.Sound) :
    c.Directory capacity where
  toBounds := k.bounds
  counts tier ghost := by
    obtain ⟨seqs, L⟩ := h.lists
    have bytes : (c.list tier ghost).bytes = _ := L.bytes (tier, ghost)
    rw [bytes, L.slots_eq, held, k.uniform.overhead]
    have ones : (seqs (tier, ghost)).map (c.store.records.weight fun r => r.size + 0) =
        (seqs (tier, ghost)).map fun _ => 1 := by
      apply List.map_congr_left
      intro i hi
      obtain ⟨r, hr, -⟩ := (L.mem_iff _ i).mp hi
      rw [Arena.weight_of_get? hr, (k.uniform.unit i r hr).1]
    rw [ones]
    simp

theorem settles_perform_standing {capacity : Nat} {c : Arc} (h : c.Sound)
    (built : BuiltWith capacity 0 c) (k : c.Standing capacity) {req : Request} (size : req.size = 1)
    (forever : req.ttl = none) :
    Settles .arithmetic (perform c (.get req)) fun d => (d.Sound ∧ BuiltWith capacity 0 d) ∧
      d.Standing capacity := by
  apply ((dependable_builtWith capacity 0).settles_perform c (.get req) ⟨h, built⟩).also
  rw [perform, serve_eq]
  apply settles_map
  apply settles_bind (settles_answer_standing h built.capacity k size forever)
  intro p stands
  exact settles_pure stands

/--
After any number of requests for objects of one byte, the recent side has at most
as many records as the cache has room for, all lists together at most twice as
many, and ghosts only occur beside a full cache. With a capacity that can be
doubled, nothing but the number of requests can leave its range.
-/
theorem run_bounds (capacity : Nat) (reqs : List Request)
    (units : ∀ req ∈ reqs, req.size = 1 ∧ req.ttl = none) :
    Settles .arithmetic (run (empty capacity 0) (reqs.map .get)) (Directory capacity) ∧
    (capacity < 2 ^ 62 → IsWord reqs.length →
      ∃ c, run (empty capacity 0) (reqs.map .get) = .ok c ∧ c.Directory capacity) := by
  have standing : Settles .arithmetic (run (empty capacity 0) (reqs.map .get)) (Directory capacity) := by
    have kept : Settles .arithmetic (run (empty capacity 0) (reqs.map .get)) fun c =>
        (c.Sound ∧ BuiltWith capacity 0 c) ∧ c.Standing capacity := by
      apply settles_foldlM
      · refine ⟨⟨sound_empty capacity 0, rfl, rfl⟩, ⟨rfl, fun i r hr => ?_⟩, ?_⟩
        · simp [empty, Store.empty, Store.get?, Arena.get?_empty] at hr
        · constructor <;> simp [empty, SizedChain.empty]
      · intro c kept op hop
        obtain ⟨req, hreq, rfl⟩ := List.mem_map.mp hop
        obtain ⟨size, forever⟩ := units req hreq
        exact settles_perform_standing kept.1.1 kept.1.2 kept.2 size forever
    apply kept.mono
    intro c kept
    exact kept.2.directory kept.1.1
  refine ⟨standing, fun small few => ?_⟩
  have doubled : IsWord (2 * capacity) := by
    unfold IsWord wordBound
    omega
  have cost := Operation.sum_cost_of_units fun req hreq => (units req hreq).1
  have timely := Operation.timely_of_units fun req hreq => (units req hreq).2
  obtain ⟨c, e⟩ := exists_run doubled (cost ▸ few) timely
  rw [e] at standing
  exact ⟨c, e, standing⟩

theorem run_bounds_trimmed :
    ∃ c, run (empty 2 0) (([1, 2, 1, 3, 4, 2, 5, 3].map (Request.ofId · 1 0)).map .get) = .ok c ∧
      c.Directory 2 :=
  (run_bounds 2 _ (by decide)).2 (by decide) (by decide)

end CacheReplay.Arc
