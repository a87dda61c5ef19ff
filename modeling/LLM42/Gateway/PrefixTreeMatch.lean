import LLM42.Gateway.PrefixTreeEvict
import Mathlib.Order.Bounds.Basic

/-! # The prefix tree as an index of texts

The texts that tenants retain are what the tree is for: inserting adds one, matching finds the
longest beginning of a text that someone retains, evicting takes from tenants above a limit and
removing takes everything from one tenant. -/

namespace LLM42.Gateway

open Library List

namespace Tree

variable {skip : String → Prop} {t : Tree} {e : PathNode Char TreeNode} {p q : List Char}
  {u v : String}

/-! ## The walk -/

section Walk

variable {visible : TreeNode → Bool} {fuel : Nat} {prev remaining : List Char}

/-- Where a walk from `prev` along `remaining` ends: `curr` goes on from the `n` characters that it
has matched, and no visible node carries the next one. -/
structure Walks (t : Tree) (visible : TreeNode → Bool) (prev remaining : List Char)
    (curr : List Char) (n : Nat) : Prop where
  le : n ≤ remaining.length
  holds : curr = prev ∨ ∃ e ∈ t.nodes, e.path = curr ∧ visible e.data
  begins : prev ++ remaining.take n <+: curr
  ends : n < remaining.length →
    ¬ ∃ e ∈ t.nodes, visible e.data ∧ e.Covers (prev ++ remaining.take (n + 1))

theorem Walks.stop (hend : ∀ c rest, remaining = c :: rest →
    ¬ ∃ e ∈ t.nodes, visible e.data ∧ e.Covers (prev ++ [c])) :
    Walks t visible prev remaining prev 0 where
  le := Nat.zero_le _
  holds := .inl rfl
  begins := by simp
  ends hlt := by
    obtain ⟨c, rest, rfl⟩ := exists_cons_of_length_pos hlt
    simpa using hend c rest rfl

theorem Walks.cons {curr : List Char} {s n : Nat} (hs : s ≤ remaining.length)
    (hpath : e.path = prev ++ remaining.take s) (he : e ∈ t.nodes) (hvisible : visible e.data)
    (h : Walks t visible e.path (remaining.drop s) curr n) :
    Walks t visible prev remaining curr (s + n) where
  le := by
    have := h.le
    rw [length_drop] at this
    omega
  holds := .inr (h.holds.elim (fun hc => ⟨e, he, hc.symm, hvisible⟩) id)
  begins := by
    have := h.begins
    rwa [hpath, append_assoc, ← take_add] at this
  ends hlt := by
    have := h.ends (by rw [length_drop]; omega)
    rwa [hpath, append_assoc, ← take_add] at this

section

variable (h : t.Sound skip)

include h

theorem Sound.walks_inside (he : e ∈ t.nodes) (hvisible : visible e.data)
    (hpos : 0 < keyMatch remaining e.key) (hlt : keyMatch remaining e.key < e.key.length) :
    Walks t visible e.parent remaining e.path (keyMatch remaining e.key) where
  le := keyMatch_le_left _ _
  holds := .inr ⟨e, he, rfl, hvisible⟩
  begins := by
    rw [take_keyMatch]
    conv_rhs => rw [← e.parent_append_key]
    exact (prefix_append_right_inj _).mpr (List.take_prefix _ _)
  ends hn := by
    -- who carries the next character goes on from the whole edge, which has another one there
    rintro ⟨f, hf, -, hcovers⟩
    have hcover : e.Covers (e.parent ++ remaining.take (keyMatch remaining e.key)) := by
      refine ⟨?_, ?_⟩
      · rw [length_append, h.shaped.length_parent he, length_take]
        omega
      · rw [take_keyMatch]
        conv_rhs => rw [← e.parent_append_key]
        exact (prefix_append_right_inj _).mpr (List.take_prefix _ _)
    have hshort : e.parent ++ remaining.take (keyMatch remaining e.key) <+:
        e.parent ++ remaining.take (keyMatch remaining e.key + 1) :=
      (prefix_append_right_inj _).mpr (take_prefix_take_left (Nat.le_succ _))
    have hef := h.shaped.prefix_of_covers he hcover hf (hshort.trans hcovers.2)
    have hle : (e.parent ++ remaining.take (keyMatch remaining e.key + 1)).length ≤
        e.path.length := by
      rw [← e.parent_append_key, length_append, length_append, length_take]
      omega
    have hbegin := prefix_of_prefix_length_le hcovers.2 hef hle
    rw [← e.parent_append_key, prefix_append_right_inj] at hbegin
    have hmatch := keyMatch_eq_length_iff.mpr hbegin
    rw [keyMatch_take, length_take] at hmatch
    omega

/-- The walk stops where no visible node carries the next character. -/
theorem Sound.walks (visible : TreeNode → Bool) (matched : Nat) (hprev : t.nodes.Holds prev)
    (hfuel : remaining.length ≤ fuel) :
    ∃ n, (t.matchWalk visible fuel prev remaining matched).2 = matched + n ∧
      Walks t visible prev remaining (t.matchWalk visible fuel prev remaining matched).1 n := by
  induction fuel generalizing prev remaining matched with
  | zero =>
    obtain rfl := eq_nil_of_length_eq_zero (Nat.le_zero.mp hfuel)
    exact ⟨0, rfl, .stop nofun⟩
  | succ fuel ih =>
    cases remaining with
    | nil => exact ⟨0, rfl, .stop nofun⟩
    | cons c rest =>
      simp only [matchWalk]
      cases hc : t.child? prev c with
      | none =>
        refine ⟨0, rfl, .stop ?_⟩
        rintro _ _ ⟨rfl, rfl⟩ ⟨e, he, -, hcovers⟩
        rw [h.child?_eq] at hc
        have := (h.shaped.child?_isSome hprev).mpr ⟨e, he, hcovers⟩
        rw [hc] at this
        exact Bool.noConfusion this
      | some e =>
        rw [h.child?_eq] at hc
        have hcovers : e.Covers (prev ++ [c]) := by
          obtain ⟨-, hs, htake⟩ := PathTree.mem_of_child? hc
          exact ⟨by simp [hs], htake ▸ take_prefix _ _⟩
        obtain ⟨he, rfl, hhead⟩ := h.shaped.parent_of_child? hc
        simp only [h.texts e he, NodeText.new, sharedPrefixCount_eq, advanceByChars_eq]
        have hpos : 0 < keyMatch (c :: rest) e.key :=
          keyMatch_pos (by rw [hhead, head?_cons]) (h.shaped.key_ne_nil he)
        have hle := keyMatch_le_right (c :: rest) e.key
        split
        · next hvisible =>
          split
          · next hfull =>
            have hpath : e.path = e.parent ++ (c :: rest).take (keyMatch (c :: rest) e.key) := by
              rw [take_keyMatch, hfull, take_length, e.parent_append_key]
            have hlen : ((c :: rest).drop (keyMatch (c :: rest) e.key)).length ≤ fuel := by
              rw [length_drop]
              omega
            obtain ⟨n, hn, hwalks⟩ :=
              ih (matched + keyMatch (c :: rest) e.key) (.inr ⟨e, he, rfl⟩) hlen
            exact ⟨_, hn.trans (Nat.add_assoc ..),
              hwalks.cons (keyMatch_le_left _ _) hpath he hvisible⟩
          · next hpart => exact ⟨_, rfl, h.walks_inside he hvisible hpos (by omega)⟩
        · next hhidden =>
          refine ⟨0, rfl, .stop ?_⟩
          rintro _ _ ⟨rfl, rfl⟩ ⟨f, hf, hvisible, hcovers'⟩
          rw [h.shaped.covers_unique hf he hcovers' hcovers] at hvisible
          exact hhidden hvisible

theorem Sound.exists_covers (hret : t.Retains u p) (hp : p ≠ []) :
    ∃ e ∈ t.nodes, u ∈ e.data.tenants ∧ e.Covers p := by
  obtain ⟨q, hpq, hu⟩ := hret
  induction hn : q.length using Nat.strong_induction_on generalizing q with
  | _ n ih =>
    have hq : q ≠ [] := fun hq => hp (prefix_nil.mp (hq ▸ hpq))
    obtain ⟨e, he, rfl, hue⟩ := exists_of_mem_tenantsAt hu hq
    by_cases hlt : e.start < p.length
    · exact ⟨e, he, hue, hlt, hpq⟩
    · have hstart := h.shaped.start_lt e he
      have hlen := h.shaped.length_parent he
      refine ih _ (by omega) e.parent ?_ (h.above e he u hue) rfl
      rw [PathNode.parent, prefix_take_iff]
      exact ⟨hpq, by omega⟩

theorem Sound.isGreatest_walk (visible : TreeNode → Bool) (who : String → Prop)
    (hvisible : ∀ e ∈ t.nodes, visible e.data = true ↔ ∃ u, who u ∧ u ∈ e.data.tenants)
    (text : List Char) :
    IsGreatest {n | n ≤ text.length ∧ (n = 0 ∨ ∃ u, who u ∧ t.Retains u (text.take n))}
      (t.matchWalk visible text.length [] text 0).2 := by
  obtain ⟨n, hn, hwalks⟩ := h.walks visible 0 (.inl rfl) (Nat.le_refl _)
  rw [hn, Nat.zero_add]
  have hbegins := hwalks.begins
  rw [nil_append] at hbegins
  refine ⟨⟨hwalks.le, ?_⟩, fun k ⟨hk, hret⟩ => Nat.le_of_not_lt fun hlt => ?_⟩
  · rcases hwalks.holds with hcurr | ⟨e, he, hcurr, hvis⟩
    · rw [hcurr] at hbegins
      have := eq_nil_of_prefix_nil hbegins
      rw [take_eq_nil_iff] at this
      exact .inl (this.elim id fun hnil => by simpa [hnil] using hwalks.le)
    · obtain ⟨u, hwho, hu⟩ := (hvisible e he).mp hvis
      refine .inr ⟨u, hwho, _, hbegins, ?_⟩
      rwa [← hcurr, h.tenantsAt_path he]
  · obtain ⟨u, hwho, q, hq, hu⟩ := hret.resolve_left (by omega)
    have hnext : t.Retains u (text.take (n + 1)) :=
      ⟨q, (take_prefix_take_left (by omega)).trans hq, hu⟩
    have hne : text.take (n + 1) ≠ [] := by
      rw [ne_eq, take_eq_nil_iff]
      rintro (hc | hc)
      · omega
      · simp [hc] at hk
        omega
    obtain ⟨e, he, hue, hcovers⟩ := h.exists_covers hnext hne
    exact hwalks.ends (by omega) ⟨e, he, (hvisible e he).mpr ⟨u, hwho, hue⟩, hcovers⟩

theorem Sound.walk_begins (text : List Char) (visible : TreeNode → Bool) :
    t.nodes.Holds (t.matchWalk visible text.length [] text 0).1 ∧
      text.take (t.matchWalk visible text.length [] text 0).2 <+:
        (t.matchWalk visible text.length [] text 0).1 := by
  obtain ⟨n, hn, hwalks⟩ := h.walks visible 0 (.inl rfl) (Nat.le_refl _)
  rw [hn, Nat.zero_add]
  refine ⟨hwalks.holds.imp id fun ⟨e, he, hcurr, _⟩ => ⟨e, he, hcurr⟩, ?_⟩
  simpa using hwalks.begins

end

end Walk

/-! ## Matches -/

section Match

structure SameOwners (t t' : Tree) : Prop where
  tenants : ∀ p v, v ∈ t'.tenantsAt p ↔ v ∈ t.tenantsAt p
  counts : t'.tenantCharCount = t.tenantCharCount

theorem SameOwners.registered {t' : Tree} (h : SameOwners t t') (hreg : t.Registered) :
    t'.Registered := by
  intro u
  rw [h.counts, hreg u]
  exact (h.tenants [] u).symm

theorem sameOwners_touch (hT : t.nodes.Shaped) (hu : u ∈ t.tenantsAt p) (epoch : Nat) :
    SameOwners t (t.editTenants p (·.insert u epoch)) := by
  refine ⟨fun q v => ?_, tenantCharCount_editTenants⟩
  rw [tenantsAt_editTenants hT (holds_of_mem_tenantsAt hu)]
  split
  · next hq =>
    rw [AList.mem_insert, hq]
    exact ⟨fun hv => hv.elim (fun hv => hv ▸ hu) id, .inr⟩
  · rfl

theorem sameOwners_setLastTenant (t : Tree) (p : List Char) (u : String) :
    SameOwners t (t.setLastTenant p u) := by
  unfold setLastTenant
  split
  · exact ⟨fun _ _ => Iff.rfl, rfl⟩
  · refine ⟨fun q v => ?_, rfl⟩
    simp only [tenantsAt, PathTree.edit, PathTree.node?_mapData]
    split
    · rfl
    · cases t.nodes.node? q with
      | none => rfl
      | some e => by_cases he : e.path = p <;> simp [he]

theorem tenantFor_spec (t : Tree) (p : List Char) (pick : Nat) :
    ((∃ u, u ∈ t.tenantsAt p) → (t.tenantFor p pick).1 ∈ t.tenantsAt p) ∧
      ((t.tenantFor p pick).2 = t ∨
        (t.tenantFor p pick).2 = t.setLastTenant p (t.tenantFor p pick).1) := by
  have hany : (∃ u, u ∈ t.tenantsAt p) → t.anyTenantAt p pick ∈ t.tenantsAt p := by
    rintro ⟨u, hu⟩
    have hpos := length_pos_of_mem (AList.mem_keys.mp hu)
    have hlt := Nat.mod_lt pick hpos
    rw [anyTenantAt, getElem?_eq_getElem hlt]
    exact AList.mem_keys.mpr (getElem_mem hlt)
  unfold tenantFor
  split
  · split
    · next hmem => exact ⟨fun _ => hmem, .inl rfl⟩
    · exact ⟨hany, .inr rfl⟩
  · exact ⟨hany, .inr rfl⟩

section

variable (h : t.Sound skip)

include h

theorem Sound.exists_mem_tenantsAt (hp : t.nodes.Holds p) (hroot : ∃ u, u ∈ t.rootTenants) :
    ∃ u, u ∈ t.tenantsAt p := by
  rcases hp with rfl | ⟨e, he, rfl⟩
  · exact hroot
  · rw [h.tenantsAt_path he]
    exact h.owned e he

theorem Sound.isGreatest_matched (text : List Char) (epoch pick : Nat) :
    IsGreatest {n | n ≤ text.length ∧ (n = 0 ∨ ∃ u, t.Retains u (text.take n))}
      (t.prefixMatchWithCounts text epoch pick).1.matchedCharCount := by
  have hwalk := h.isGreatest_walk (fun _ => true) (fun _ => True)
    (fun e he => by simpa using h.owned e he) text
  simp only [true_and] at hwalk
  exact hwalk

theorem Sound.prefixMatch_eq {text : List Char} (hu : u ∈ t.tenantsAt text) (epoch pick : Nat) :
    (t.prefixMatch text epoch pick).1.1 = text := by
  obtain ⟨⟨hle, -⟩, hgreatest⟩ := h.isGreatest_matched text epoch pick
  have hfull := hgreatest (show text.length ∈ {n | n ≤ text.length ∧ (n = 0 ∨
      ∃ u, t.Retains u (text.take n))} from
    ⟨Nat.le_refl _, .inr ⟨u, text, take_prefix _ _, hu⟩⟩)
  exact (takeChars_eq _ _).trans (take_of_length_le hfull)

theorem Sound.matched_tenant (hroot : ∃ u, u ∈ t.rootTenants) (text : List Char)
    (epoch pick : Nat) :
    t.Retains (t.prefixMatchWithCounts text epoch pick).1.tenant
      (text.take (t.prefixMatchWithCounts text epoch pick).1.matchedCharCount) := by
  obtain ⟨hholds, hbegins⟩ := h.walk_begins text fun _ => true
  exact ⟨_, hbegins, (t.tenantFor_spec _ pick).1 (h.exists_mem_tenantsAt hholds hroot)⟩

theorem Sound.prefixMatchWithCounts (text : List Char) {epoch : Nat} (pick : Nat)
    (hmatch : (∃ u, u ∈ t.rootTenants) ∨ epoch % 8 ≠ 0) :
    (t.prefixMatchWithCounts text epoch pick).2.Sound skip ∧
      SameOwners t (t.prefixMatchWithCounts text epoch pick).2 := by
  obtain ⟨hholds, -⟩ := h.walk_begins text fun _ => true
  simp only [Tree.prefixMatchWithCounts]
  generalize (t.matchWalk (fun _ => true) text.length [] text 0).1 = curr at hholds
  obtain ⟨hmem, hcached⟩ := t.tenantFor_spec curr pick
  have hsound : (t.tenantFor curr pick).2.Sound skip ∧ SameOwners t (t.tenantFor curr pick).2 := by
    rcases hcached with heq | heq
    · rw [heq]
      exact ⟨h, fun _ _ => Iff.rfl, rfl⟩
    · rw [heq]
      exact ⟨h.setLastTenant _ _, sameOwners_setLastTenant ..⟩
  split
  · next hepoch =>
    have hroot := hmatch.resolve_right fun hne => hne hepoch
    have hu := (hsound.2.tenants curr _).mpr (hmem (h.exists_mem_tenantsAt hholds hroot))
    have htouch := sameOwners_touch hsound.1.shaped hu epoch
    refine ⟨hsound.1.touch hu epoch, fun p v => ?_, htouch.counts.trans hsound.2.counts⟩
    exact (htouch.tenants p v).trans (hsound.2.tenants p v)
  · exact hsound

theorem Sound.prefixMatchTenant (text : List Char) (u : String) (epoch : Nat) :
    (t.prefixMatchTenant text u epoch).2.Sound skip ∧
      SameOwners t (t.prefixMatchTenant text u epoch).2 := by
  simp only [Tree.prefixMatchTenant]
  split
  · next hu => exact ⟨h.touch hu epoch, sameOwners_touch h.shaped hu epoch⟩
  · exact ⟨h, fun _ _ => Iff.rfl, rfl⟩

end

end Match

/-! ## Histories -/

inductive TreeEvent
  | insert (text : List Char) (tenant : String) (epoch : Nat)
  | prefixMatchWithCounts (text : List Char) (epoch pick : Nat)
  | prefixMatchTenant (text : List Char) (tenant : String) (epoch : Nat)
  | evictTenantBySize (maxSize : Nat) (pick : List EvictionEntry → Nat)
  | removeTenant (tenant : String)

def treeStep (t : Tree) : TreeEvent → Except Empty Tree
  | .insert text tenant epoch => .ok (t.insert text tenant epoch)
  | .prefixMatchWithCounts text epoch pick => .ok (t.prefixMatchWithCounts text epoch pick).2
  | .prefixMatchTenant text tenant epoch => .ok (t.prefixMatchTenant text tenant epoch).2
  | .evictTenantBySize maxSize pick => .ok (t.evictTenantBySize maxSize pick)
  | .removeTenant tenant => .ok (t.removeTenant tenant)

/-- A match finds a tenant at the root, or is not one of those that write an access time. -/
def FindsTenant (t : Tree) : TreeEvent → Prop
  | .prefixMatchWithCounts _ epoch _ => t.rootTenants.keys ≠ [] ∨ epoch % 8 ≠ 0
  | _ => True

instance (t : Tree) (ev : TreeEvent) : Decidable (t.FindsTenant ev) := by
  unfold FindsTenant
  split <;> infer_instance

structure Consistent (t : Tree) : Prop where
  sound : t.Sound fun _ => False
  registered : t.Registered

theorem consistent_new : Consistent new := by
  refine ⟨⟨PathTree.shaped_nil, ?_, ?_, ?_, ?_, ?_⟩, fun u => Iff.rfl⟩
  all_goals simp [new, usedSize]

theorem Sound.registered_insert {text : List Char} {epoch : Nat} (h : t.Sound skip)
    (hreg : t.Registered) : (t.insert text u epoch).Registered := by
  obtain ⟨hsound, hgrow, hu, hcount⟩ := h.insert text u epoch
  intro v
  constructor
  · intro hv
    rcases hgrow.countsOnly v hv with hv | rfl
    · exact hgrow.carries [] v ((hreg v).mp hv)
    · exact hsound.mem_of_retains ⟨text, nil_prefix, hu⟩ (.inl rfl)
  · intro hv
    rcases hgrow.only [] v hv with hv | ⟨rfl, -⟩
    · exact hgrow.counts v ((hreg v).mpr (h.mem_of_retains hv (.inl rfl)))
    · exact hcount

theorem Consistent.step (h : t.Consistent) {ev : TreeEvent} {t' : Tree} (hev : t.FindsTenant ev)
    (hstep : treeStep t ev = .ok t') : t'.Consistent := by
  cases ev with
  | insert text u epoch =>
    cases hstep
    exact ⟨(h.sound.insert text u epoch).1, h.sound.registered_insert h.registered⟩
  | prefixMatchWithCounts text epoch pick =>
    cases hstep
    have hroot : (∃ u, u ∈ t.rootTenants) ∨ epoch % 8 ≠ 0 :=
      hev.imp_left fun hne => exists_mem_of_ne_nil _ hne
    obtain ⟨hsound, hsame⟩ := h.sound.prefixMatchWithCounts text pick hroot
    exact ⟨hsound, hsame.registered h.registered⟩
  | prefixMatchTenant text u epoch =>
    cases hstep
    obtain ⟨hsound, hsame⟩ := h.sound.prefixMatchTenant text u epoch
    exact ⟨hsound, hsame.registered h.registered⟩
  | evictTenantBySize m pick =>
    cases hstep
    obtain ⟨hshrunk, -⟩ := h.sound.evictTenantBySize m pick
    exact ⟨hshrunk.sound, hshrunk.registered h.registered⟩
  | removeTenant u =>
    cases hstep
    have hremoved := h.sound.removeTenant u
    exact ⟨hremoved.sound, hremoved.registered h.registered⟩

/-- A tree that is an index of the texts that its tenants retain. -/
structure IsIndex (t : Tree) : Prop where
  filed : ∀ e ∈ t.nodes, e.data.text.text.head? = some e.data.slot
  above : ∀ e ∈ t.nodes, ∀ u ∈ e.data.tenants, u ∈ t.tenantsAt e.parent
  counted : ∀ u, (t.tenantCharCount.lookup u).getD 0 = t.usedSize u
  inserted : ∀ text u epoch v q, (t.insert text u epoch).Retains v q ↔
    t.Retains v q ∨ v = u ∧ q <+: text
  matched : ∀ text epoch pick,
    IsGreatest {n | n ≤ text.length ∧ (n = 0 ∨ ∃ u, t.Retains u (text.take n))}
      (t.prefixMatchWithCounts text epoch pick).1.matchedCharCount
  tenant : (∃ u, u ∈ t.tenantCharCount) → ∀ text epoch pick,
    (t.prefixMatchWithCounts text epoch pick).1.tenant ∈ t.tenantCharCount ∧
      t.Retains (t.prefixMatchWithCounts text epoch pick).1.tenant
        (text.take (t.prefixMatchWithCounts text epoch pick).1.matchedCharCount)
  evicted : ∀ m pick,
    (∀ u, ((t.evictTenantBySize m pick).tenantCharCount.lookup u).getD 0 ≤ m) ∧
      ∀ u, t.withinLimit m u → ∀ p, u ∈ t.tenantsAt p →
        u ∈ (t.evictTenantBySize m pick).tenantsAt p
  removed : ∀ u, (∀ p, u ∉ (t.removeTenant u).tenantsAt p) ∧
    (∀ e ∈ (t.removeTenant u).nodes, ∃ v, v ∈ e.data.tenants) ∧
      ∀ v, v ≠ u → ∀ p, v ∈ t.tenantsAt p → v ∈ (t.removeTenant u).tenantsAt p

theorem Sound.retains_insert (h : t.Sound skip) (text : List Char) (u : String) (epoch : Nat)
    (v : String) (q : List Char) :
    (t.insert text u epoch).Retains v q ↔ t.Retains v q ∨ v = u ∧ q <+: text := by
  obtain ⟨-, hgrow, hu, -⟩ := h.insert text u epoch
  constructor
  · rintro ⟨r, hqr, hr⟩
    rcases hgrow.only r v hr with ⟨s, hrs, hs⟩ | ⟨hv, hrtext⟩
    · exact .inl ⟨s, hqr.trans hrs, hs⟩
    · exact .inr ⟨hv, hqr.trans hrtext⟩
  · rintro (⟨r, hqr, hr⟩ | ⟨rfl, hq⟩)
    · exact ⟨r, hqr, hgrow.carries r v hr⟩
    · exact ⟨text, hq, hu⟩

theorem Consistent.isIndex (h : t.Consistent) : t.IsIndex where
  filed e he := by
    rw [h.sound.texts e he]
    exact h.sound.filed e he
  above := h.sound.above
  counted u := h.sound.counted u id
  inserted := h.sound.retains_insert
  matched := h.sound.isGreatest_matched
  tenant := by
    rintro ⟨u, hu⟩ text epoch pick
    have hret := h.sound.matched_tenant ⟨u, (h.registered u).mp hu⟩ text epoch pick
    have ⟨q, _, hq⟩ := hret
    exact ⟨(h.registered _).mpr (h.sound.mem_of_retains ⟨q, nil_prefix, hq⟩ (.inl rfl)), hret⟩
  evicted m pick :=
    ⟨(h.sound.evictTenantBySize m pick).2, (h.sound.evictTenantBySize m pick).1.kept⟩
  removed u := ⟨(h.sound.removeTenant u).gone, (h.sound.removeTenant u).sound.owned,
      (h.sound.removeTenant u).kept⟩

/-- In every history in which no match writes an access time to a root without tenants, the tree is
an index. -/
theorem isIndex_of_reachable (h : Reachable treeStep (· = new) FindsTenant t) : t.IsIndex := by
  have hconsistent : t.Consistent :=
    h.invariant (fun _ ht => ht ▸ consistent_new) fun _ _ _ ht hev hstep => ht.step hev hstep
  exact hconsistent.isIndex

/-- Two workers share the beginning of a text, which a match that writes an access time finds. -/
theorem isIndex_of_reachable_twoWorkers : ∃ t, Reachable treeStep (· = new) FindsTenant t ∧
      (t.prefixMatchWithCounts "hé!".toList 1 0).1 = ⟨"w1", 2, 3⟩ ∧ t.IsIndex :=
  exists_reachable_imp rfl [.insert "héa".toList "w1" 0, .insert "héb".toList "w2" 1,
    .prefixMatchWithCounts "hé!".toList 8 0, .evictTenantBySize 2 (fun _ => 0)]
    (by decide +kernel) fun _ hreach hmatch => ⟨hmatch, isIndex_of_reachable hreach⟩

/-- A match on an empty tree in an eighth epoch makes `"empty"` a tenant of the root; a later match
reports it in place of the worker that is registered. -/
theorem reports_unregistered :
    ∃ t, Reachable treeStep (· = new) (fun _ _ => True) t ∧ "w1" ∈ t.tenantCharCount ∧
      (t.prefixMatchWithCounts "a".toList 2 0).1.tenant = "empty" ∧
      "empty" ∉ t.tenantCharCount ∧ ¬ t.IsIndex :=
  exists_reachable_imp (p := fun _ => _ ∧ _ ∧ _) rfl
    [.prefixMatchWithCounts "a".toList 0 0, .insert "b".toList "w1" 1] (by decide +kernel)
    fun _ _ ⟨hregistered, hmatch, hempty⟩ => ⟨hregistered, hmatch, hempty, fun h => hempty
      (hmatch ▸ (h.tenant ⟨"w1", hregistered⟩ "a".toList 2 0).1)⟩

end Tree

end LLM42.Gateway
