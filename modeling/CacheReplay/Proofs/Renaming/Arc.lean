import CacheReplay.Policy.Arc
import CacheReplay.Proofs.Renaming.Runs

set_option autoImplicit false

namespace CacheReplay

variable {f : Nat → Nat}

section
variable (f : Nat → Nat) (l : SizedChain) (a : Arena (Record Tier)) (i : Slot) (bytes : Nat)

theorem attach_rename : l.attach (a.map (Record.rename f)) i bytes =
    (fun p => (p.1, p.2.map (Record.rename f))) <$> l.attach a i bytes := by
  unfold SizedChain.attach
  rw [pushFront_rename, map_bind]
  rfl

theorem detach_rename : l.detach (a.map (Record.rename f)) i bytes =
    (fun p => (p.1, p.2.map (Record.rename f))) <$> l.detach a i bytes := by
  unfold SizedChain.detach
  rw [unlink_rename, map_bind, bind_map_left]
  refine bind_congr fun p => ?_
  dsimp only
  rw [map_bind]
  rfl

end

namespace Arc

def Renamed (f : Nat → Nat) (c c' : Arc) : Prop :=
  ∃ s', c.store.Renamed f s' ∧ c' = { c with store := s' }

theorem list_store (c : Arc) (s : Store Tier) (tier : Tier) (ghost : Bool) :
    ({ c with store := s } : Arc).list tier ghost = c.list tier ghost := by
  cases tier <;> cases ghost <;> rfl

theorem renamed_withList (c : Arc) {s s' : Store Tier} (hs : s.Renamed f s') (l : SizedChain)
    (tier : Tier) (ghost : Bool) : Renamed f (({ c with store := s } : Arc).withList l tier ghost)
      (({ c with store := s' } : Arc).withList l tier ghost) := by
  cases tier <;> cases ghost <;> exact ⟨s', hs, rfl⟩

namespace Renamed
variable {c c' : Arc} (h : c.Renamed f c')
include h

theorem withAccount (account : Account) :
    Renamed f { c with account } { c' with account } := by
  obtain ⟨s', hs, rfl⟩ := h
  exact ⟨s', hs, rfl⟩

theorem account_eq : c'.account = c.account := by
  obtain ⟨s', hs, rfl⟩ := h
  rfl

theorem get? (i : Slot) : c'.store.get? i = (c.store.get? i).map (Record.rename f) := by
  obtain ⟨s', hs, rfl⟩ := h
  exact hs.get? i

theorem find? (id : Nat) : c'.store.find? (f id) = c.store.find? id := by
  obtain ⟨s', hs, rfl⟩ := h
  exact hs.find? id

theorem findGhost? (id : Nat) : c'.store.findGhost? (f id) = c.store.findGhost? id := by
  obtain ⟨s', hs, rfl⟩ := h
  exact hs.findGhost? id

theorem list_eq (tier : Tier) (ghost : Bool) : c'.list tier ghost = c.list tier ghost := by
  obtain ⟨s', hs, rfl⟩ := h
  exact c.list_store s' tier ghost

theorem replaced_eq : c'.replaced = c.replaced := by
  obtain ⟨s', hs, rfl⟩ := h
  rfl

theorem attach (tier : Tier) (ghost : Bool) (i : Slot) (bytes : Nat) :
    Alike (Renamed f) (c.attach tier ghost i bytes) (c'.attach tier ghost i bytes) := by
  unfold Arc.attach
  rw [h.list_eq]
  obtain ⟨s', hs, rfl⟩ := h
  dsimp only
  rw [hs.records, attach_rename]
  exact .bind_map _ fun p => .pure (renamed_withList c (hs.relinked p.2) p.1 tier ghost)

theorem detach (tier : Tier) (ghost : Bool) (i : Slot) (bytes : Nat) :
    Alike (Renamed f) (c.detach tier ghost i bytes) (c'.detach tier ghost i bytes) := by
  unfold Arc.detach
  rw [h.list_eq]
  obtain ⟨s', hs, rfl⟩ := h
  dsimp only
  rw [hs.records, detach_rename]
  exact .bind_map _ fun p => .pure (renamed_withList c (hs.relinked p.2) p.1 tier ghost)

theorem promote (i : Slot) (r : Record Tier) (req : Request) :
    Alike (Renamed f) (c.promote i r req) (c'.promote i (r.rename f) (req.rename f)) := by
  obtain ⟨s', hs, rfl⟩ := h
  unfold Arc.promote
  refine .bind_same _ fun bytes => ?_
  have noted := hs.touch i req c.account.now fun _ => Tier.frequent
  dsimp only
  rw [Record.rename_tag]
  cases r.tag with
  | recent =>
    refine (Renamed.detach ⟨_, noted, rfl⟩ .recent false i bytes).bind fun _ _ hd => ?_
    exact hd.attach .frequent false i bytes
  | frequent =>
    dsimp only
    rw [noted.records, moveToFront_rename]
    exact .bind_map _ fun p => .pure ⟨_, noted.relinked p.2, rfl⟩

variable (inj : Function.Injective f)
include inj

theorem drop (i : Slot) : Alike (Renamed f) (c.drop i) (c'.drop i) := by
  obtain ⟨s', hs, rfl⟩ := h
  unfold Arc.drop
  dsimp only
  rw [hs.get?]
  cases c.store.get? i with
  | none => exact .pure ⟨s', hs, rfl⟩
  | some r =>
    dsimp only [Option.map_some]
    rw [Record.rename_ghost, Record.rename_size, Record.rename_tag]
    refine .bind_same _ fun bytes => ?_
    refine (Renamed.detach ⟨s', hs, rfl⟩ r.tag r.ghost i bytes).bind ?_
    rintro d _ ⟨t', ht, rfl⟩
    refine (ht.delete inj i).bind ?_
    rintro ⟨gone, s⟩ ⟨_, u⟩ ⟨rfl, deleted⟩
    dsimp only
    split
    · exact .pure ⟨u, deleted, rfl⟩
    · exact .bind_same _ fun account => .pure ⟨u, deleted, rfl⟩

theorem dropLastGhost (tier : Tier) :
    Alike (Renamed f) (c.dropLastGhost tier) (c'.dropLastGhost tier) := by
  unfold Arc.dropLastGhost
  rw [h.list_eq]
  cases (c.list tier true).order.back with
  | none => exact .pure h
  | some i => exact h.drop inj i

theorem demoteLast (tier : Tier) :
    Alike (Renamed f) (c.demoteLast tier) (c'.demoteLast tier) := by
  unfold Arc.demoteLast
  rw [h.list_eq]
  cases (c.list tier false).order.back with
  | none => exact .pure h
  | some i =>
    dsimp only
    rw [h.get?]
    cases c.store.get? i with
    | none => exact .pure h
    | some r =>
      dsimp only [Option.map_some]
      rw [Record.rename_id, Record.rename_size, h.findGhost?]
      -- Once an older ghost is gone, what remains does not depend on whether there was one.
      have turned : ∀ {d d' : Arc}, d.Renamed f d' → Alike (Renamed f)
          (do
            let bytes ← d.account.footprint r.size
            let c ← d.detach tier false i bytes
            let c ← c.attach tier true i bytes
            let p ← c.store.demote i
            let account ← c.account.release r.size
            pure { c with store := p.2, account })
          (do
            let bytes ← d'.account.footprint r.size
            let c ← d'.detach tier false i bytes
            let c ← c.attach tier true i bytes
            let p ← c.store.demote i
            let account ← c.account.release r.size
            pure { c with store := p.2, account }) := by
        intro d d' hd
        rw [hd.account_eq]
        refine .bind_same _ fun bytes => ?_
        refine (hd.detach tier false i bytes).bind fun _ _ hd => ?_
        refine (hd.attach tier true i bytes).bind ?_
        rintro e _ ⟨t', ht, rfl⟩
        refine (ht.demote inj i).bind ?_
        rintro ⟨gone, s⟩ ⟨_, u⟩ ⟨rfl, demoted⟩
        exact .bind_same _ fun account => .pure ⟨u, demoted, rfl⟩
      cases c.store.findGhost? r.id with
      | none => exact turned h
      | some old => exact (h.drop inj old).bind fun _ _ hd => turned hd

theorem replace : Alike (Renamed f) c.replace c'.replace := by
  unfold Arc.replace
  rw [h.replaced_eq]
  exact h.demoteLast inj _

theorem step (size : Nat) : Alike (Renamed f) (c.step size) (c'.step size) := by
  have full : c'.recentFull size = c.recentFull size := by
    obtain ⟨s', hs, rfl⟩ := h
    rfl
  have crowded : c'.directoryFull = c.directoryFull := by
    obtain ⟨s', hs, rfl⟩ := h
    rfl
  have drops := h.drop inj
  have forgets := h.dropLastGhost inj
  have replaced := h.replace inj
  obtain ⟨s', hs, rfl⟩ := h
  unfold Arc.step
  dsimp only
  rw [full, crowded]
  split
  · exact replaced
  · refine .bind_same _ fun full => ?_
    split
    · split
      · exact (forgets .recent).bind fun _ _ hd => hd.replace inj
      · cases c.t1.order.back with
        | some i => exact drops i
        | none => exact replaced
    · refine .bind_same _ fun full => ?_
      split
      · exact (forgets .frequent).bind fun _ _ hd => hd.replace inj
      · exact replaced

theorem checkLive (i : Slot) (r : Record Tier) (req : Request) (update : Bool) :
    Alike (Agree (Renamed f)) (c.checkLive i r req update)
      (c'.checkLive i (r.rename f) (req.rename f) update) := by
  unfold Arc.checkLive
  rw [show (r.rename f).expiredAt (req.rename f).time = r.expiredAt req.time from rfl]
  split
  · cases update with
    | false => exact .pure ⟨rfl, h⟩
    | true =>
      refine (h.drop inj i).bind fun d d' hd => ?_
      rw [hd.account_eq]
      exact .bind_same _ fun account => .pure ⟨rfl, hd.withAccount account⟩
  · cases update with
    | false => exact .pure ⟨rfl, h⟩
    | true => exact (h.promote i r req).bind fun _ _ hd => .pure ⟨rfl, hd⟩

theorem revive (i : Slot) (r : Record Tier) :
    Alike (Renamed f) (c.revive i r) (c'.revive i (r.rename f)) := by
  obtain ⟨s', hs, rfl⟩ := h
  have noted : Renamed f { c with ghostHit := some r.tag, target := c.adapted r.tag }
      { c with ghostHit := some r.tag, target := c.adapted r.tag, store := s' } := ⟨s', hs, rfl⟩
  exact noted.drop inj i

theorem check (req : Request) (update : Bool) :
    Alike (Agree (Renamed f)) (c.check req update) (c'.check (req.rename f) update) := by
  have start : Renamed f (if update then { c with ghostHit := none } else c)
      (if update then { c' with ghostHit := none } else c') := by
    obtain ⟨s', hs, rfl⟩ := h
    cases update <;> exact ⟨s', hs, rfl⟩
  unfold Arc.check
  dsimp only
  generalize (if update then { c with ghostHit := none } else c) = d at start
  generalize (if update then { c' with ghostHit := none } else c') = d' at start
  rw [Request.rename_id, start.find?, start.findGhost?]
  cases d.store.find? req.id with
  | some i =>
    dsimp only
    rw [start.get?]
    cases d.store.get? i with
    | none => exact .pure ⟨rfl, start⟩
    | some r => exact start.checkLive inj i r req update
  | none =>
    cases update with
    | false => exact .pure ⟨rfl, start⟩
    | true =>
      dsimp only [if_true]
      cases d.store.findGhost? req.id with
      | none => exact .pure ⟨rfl, start⟩
      | some i =>
        dsimp only
        rw [start.get?]
        cases d.store.get? i with
        | none => exact .pure ⟨rfl, start⟩
        | some r => exact (start.revive inj i r).bind fun _ _ hd => .pure ⟨rfl, hd⟩

theorem insert (req : Request) :
    Alike (Agree (Renamed f)) (c.insert req) (c'.insert (req.rename f)) := by
  obtain ⟨s', hs, rfl⟩ := h
  unfold Arc.insert
  refine .bind_same _ fun bytes => ?_
  refine (hs.insert inj req _ _).bind ?_
  rintro ⟨_, s⟩ ⟨i, t⟩ ⟨rfl, ht⟩
  refine (Renamed.attach ⟨t, ht, rfl⟩ _ false i bytes).bind fun d d' hd => ?_
  rw [hd.account_eq]
  exact .bind_same _ fun account => .pure ⟨rfl, hd.withAccount account⟩

theorem evict (req : Request) :
    Alike (Agree (Renamed f)) (c.evict req) (c'.evict (req.rename f)) := by
  unfold Arc.evict
  rw [h.account_eq]
  refine (h.step inj req.size).bind fun d d' hd => ?_
  rw [hd.account_eq]
  exact .pure ⟨rfl, hd⟩

theorem remove (id : Nat) : Alike (Agree (Renamed f)) (c.remove id) (c'.remove (f id)) := by
  unfold Arc.remove
  rw [h.find?]
  cases c.store.find? id with
  | none => exact .pure ⟨rfl, h⟩
  | some i => exact (h.drop inj i).bind fun _ _ hd => .pure ⟨rfl, hd⟩

end Renamed

theorem impartial (inj : Function.Injective f) : EvictionPolicy.Impartial f (Renamed f) where
  name _ := rfl
  account h := h.account_eq
  evictable h := congrArg Account.objects h.account_eq
  withAccount a h := h.withAccount a
  check req update h := h.check inj req update
  insert req h := h.insert inj req
  evict req h := h.evict inj req
  remove id h := h.remove inj id
  settle _ h := .pure h

end Arc
end CacheReplay
