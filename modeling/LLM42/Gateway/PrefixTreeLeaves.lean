import LLM42.Gateway.PrefixTreeSound
import Mathlib.Algebra.Order.BigOperators.Group.List
import Mathlib.Algebra.Order.Group.Nat

/-! # Tenants that leave nodes of the prefix tree

Eviction and removal take tenants off nodes, each time off a node below which the tenant has
nothing. What that does to the tree is said once here. -/

namespace LLM42.Gateway

open Library List PathTree

def TreeNode.without (u : String) (d : TreeNode) : TreeNode :=
  { d with tenants := d.tenants.erase u }

namespace Tree

variable {skip : String → Prop} {t : Tree} {e x : PathNode Char TreeNode} {p q : List Char}
  {u v : String}

/-- The tenant has the node and no child of it. -/
def IsLeaf (t : Tree) (p : List Char) (u : String) : Prop :=
  u ∈ t.tenantsAt p ∧ t.childCarries p u = false
deriving Decidable

theorem IsLeaf.not_mem (h : t.IsLeaf p u) (hx : x ∈ t.nodes) (hp : x.parent = p) :
    u ∉ x.data.tenants := by
  intro hu
  have := childCarries_iff.mpr ⟨x, hx, hp, hu⟩
  rw [h.2] at this
  exact Bool.noConfusion this

/-- A tenant leaves a node, and the node goes if it has no tenant any more. -/
def giveUp (t : Tree) (p : List Char) (u : String) : Tree :=
  (t.removeTenantFrom p u).unlinkEmpty p (t.parentOf p)

section

variable (h : t.Sound skip)

include h

theorem Sound.node?_nil : t.nodes.node? [] = none := by
  refine find?_eq_none.mpr fun e he => ?_
  simpa using h.path_ne_nil he

theorem Sound.giveUp_root : t.giveUp [] u = { t with rootTenants := t.rootTenants.erase u } := by
  simp [giveUp, removeTenantFrom, editTenants, parentOf, h.node?_nil, unlinkEmpty]

theorem Sound.childless_of_empty (he : e ∈ t.nodes) (hleaf : t.IsLeaf e.path u)
    (hempty : (e.data.tenants.erase u).keys = []) : t.nodes.Childless e.path := by
  intro x hx hp
  obtain ⟨w, hw⟩ := h.owned x hx
  have hwu : w ≠ u := fun hwu => hleaf.not_mem hx hp (hwu ▸ hw)
  have hwe := h.above x hx w hw
  rw [hp, h.tenantsAt_path he] at hwe
  have : w ∈ (e.data.tenants.erase u).keys := (AList.mem_erase).mpr ⟨hwu, hwe⟩
  rw [hempty] at this
  exact not_mem_nil this

theorem Sound.giveUp_node (he : e ∈ t.nodes) (hleaf : t.IsLeaf e.path u) :
    t.giveUp e.path u = { t with
      nodes := if (e.data.tenants.erase u).keys = [] then t.nodes.remove e.path
        else t.nodes.edit e.path (TreeNode.without u) } := by
  have hne := h.path_ne_nil he
  have hmem := fun x =>
    @PathTree.mem_edit Char TreeNode t.nodes e x _ h.shaped he (TreeNode.without u)
  have hT : (t.nodes.edit e.path (TreeNode.without u)).Shaped := h.shaped.edit
  have he' := (hmem _).mpr (.inl rfl)
  have hremove : t.removeTenantFrom e.path u =
      { t with nodes := t.nodes.edit e.path (TreeNode.without u) } := by
    simp [removeTenantFrom, editTenants, hne]
    rfl
  have hparent : t.parentOf e.path = some e.parent := by simp [parentOf, h.shaped.node?_eq he]
  have hnode := hT.node?_eq he'
  rw [giveUp, hremove, hparent]
  simp only [unlinkEmpty, hnode]
  by_cases hempty : (e.data.tenants.erase u).keys = []
  · have hchildless : (t.nodes.edit e.path (TreeNode.without u)).Childless e.path :=
      childless_edit.mpr (h.childless_of_empty he hleaf hempty)
    have hfiled : ∀ x ∈ t.nodes.edit e.path (TreeNode.without u),
        x.key.head? = some x.data.slot := by
      intro x hx
      rcases (hmem x).mp hx with rfl | ⟨hx, -⟩
      · exact h.filed e he
      · exact h.filed x hx
    obtain ⟨s, rest, hkey, hchild⟩ := hT.child?_parent he'
    have htext : (e.data.without u).text.text = s :: rest := by
      rw [TreeNode.without, h.texts e he]
      exact hkey
    have hfound : ({ t with nodes := t.nodes.edit e.path (TreeNode.without u) } : Tree).child?
        e.parent s = some { e with data := e.data.without u } :=
      (child?_eq_of_filed hT hfiled _ _).trans hchild
    rw [if_pos ⟨hchildless, hempty⟩, if_pos hempty]
    simp only [htext, head?_cons, Option.bind_some, hfound, remove_edit]
  · rw [if_neg (fun hc => hempty hc.2), if_neg hempty]

theorem Sound.mem_giveUp (he : e ∈ t.nodes) (hleaf : t.IsLeaf e.path u) :
    x ∈ (t.giveUp e.path u).nodes ↔ x ∈ t.nodes ∧ x ≠ e ∨
      x = { e with data := e.data.without u } ∧ ∃ w, w ∈ e.data.tenants ∧ w ≠ u := by
  have hempty : (e.data.tenants.erase u).keys = [] ↔ ¬ ∃ w, w ∈ e.data.tenants ∧ w ≠ u := by
    rw [eq_nil_iff_forall_not_mem]
    simp only [← AList.mem_keys, AList.mem_erase]
    constructor
    · rintro hall ⟨w, hw, hwu⟩
      exact hall w ⟨hwu, hw⟩
    · exact fun hnone w hw => hnone ⟨w, hw.2, hw.1⟩
  rw [h.giveUp_node he hleaf]
  by_cases hw : ∃ w, w ∈ e.data.tenants ∧ w ≠ u
  · rw [if_neg (fun hk => hempty.mp hk hw), mem_edit h.shaped he]
    simp only [hw, and_true]
    exact or_comm
  · rw [if_pos (hempty.mpr hw), mem_remove]
    simp only [hw, and_false, or_false]
    refine and_congr_right fun hx => not_congr ⟨h.shaped.eq_of_path hx he, fun hxe => ?_⟩
    rw [hxe]

end

theorem not_mem_of_keys {m : TenantMap} (h : m.keys = []) : u ∉ m := by
  rw [AList.mem_keys, h]
  exact not_mem_nil

section

variable (h : t.Sound skip)

include h

/-- A weight of the nodes that only counts what belongs to someone. -/
theorem Sound.sum_giveUp (he : e ∈ t.nodes) (hleaf : t.IsLeaf e.path u)
    {w : PathNode Char TreeNode → Nat} (hw : ∀ x, x.data.tenants.keys = [] → w x = 0) :
    ((t.giveUp e.path u).nodes.map w).sum =
      w { e with data := e.data.without u } + ((t.nodes.remove e.path).map w).sum := by
  rw [h.giveUp_node he hleaf]
  by_cases hempty : (e.data.tenants.erase u).keys = []
  · rw [if_pos hempty, hw { e with data := e.data.without u } hempty, Nat.zero_add]
  · rw [if_neg hempty]
    exact sum_edit h.shaped he

variable (hleaf : t.IsLeaf p u)

include hleaf

theorem Sound.rootTenants_giveUp :
    (t.giveUp p u).rootTenants = if p = [] then t.rootTenants.erase u else t.rootTenants := by
  by_cases hp : p = []
  · rw [if_pos hp, hp, h.giveUp_root]
  · obtain ⟨e, he, rfl, -⟩ := exists_of_mem_tenantsAt hleaf.1 hp
    rw [if_neg hp, h.giveUp_node he hleaf]

theorem Sound.tenantCharCount_giveUp :
    (t.giveUp p u).tenantCharCount = t.tenantCharCount := by
  by_cases hp : p = []
  · rw [hp, h.giveUp_root]
  · obtain ⟨e, he, rfl, -⟩ := exists_of_mem_tenantsAt hleaf.1 hp
    rw [h.giveUp_node he hleaf]

theorem Sound.shaped_giveUp : (t.giveUp p u).nodes.Shaped := by
  by_cases hp : p = []
  · rw [hp, h.giveUp_root]
    exact h.shaped
  · obtain ⟨e, he, rfl, -⟩ := exists_of_mem_tenantsAt hleaf.1 hp
    rw [h.giveUp_node he hleaf]
    by_cases hempty : (e.data.tenants.erase u).keys = []
    · rw [if_pos hempty]
      exact h.shaped.remove (h.childless_of_empty he hleaf hempty)
    · rw [if_neg hempty]
      exact h.shaped.edit

theorem Sound.exists_giveUp (P : List Char → Nat → Prop) :
    (∃ x ∈ (t.giveUp p u).nodes, P x.path x.start ∧ v ∈ x.data.tenants) ↔
      ∃ x ∈ t.nodes, P x.path x.start ∧ v ∈ x.data.tenants ∧ ¬ (v = u ∧ x.path = p) := by
  by_cases hp : p = []
  · subst hp
    rw [h.giveUp_root]
    refine exists_congr fun x => and_congr_right fun hx => and_congr_right fun _ => ?_
    simp [h.path_ne_nil hx]
  · obtain ⟨e, he, rfl, hue⟩ := exists_of_mem_tenantsAt hleaf.1 hp
    simp only [h.mem_giveUp he hleaf]
    constructor
    · rintro ⟨x, ⟨hx, hxe⟩ | ⟨rfl, -⟩, hP, hv⟩
      · exact ⟨x, hx, hP, hv, fun hc => hxe (h.shaped.eq_of_path hx he hc.2)⟩
      · obtain ⟨hvu, hv⟩ := AList.mem_erase.mp hv
        exact ⟨e, he, hP, hv, fun hc => hvu hc.1⟩
    · rintro ⟨x, hx, hP, hv, hc⟩
      by_cases hxe : x = e
      · subst hxe
        have hvu : v ≠ u := fun hvu => hc ⟨hvu, rfl⟩
        exact ⟨_, .inr ⟨rfl, v, hv, hvu⟩, hP, AList.mem_erase.mpr ⟨hvu, hv⟩⟩
      · exact ⟨x, .inl ⟨hx, hxe⟩, hP, hv⟩

theorem Sound.mem_tenantsAt_giveUp :
    v ∈ (t.giveUp p u).tenantsAt q ↔ v ∈ t.tenantsAt q ∧ ¬ (v = u ∧ q = p) := by
  by_cases hq : q = []
  · rw [hq, tenantsAt_nil, tenantsAt_nil, h.rootTenants_giveUp hleaf]
    by_cases hp : p = []
    · simp [hp, AList.mem_erase, and_comm]
    · simp [hp, Ne.symm hp]
  · rw [mem_tenantsAt_iff (h.shaped_giveUp hleaf) hq, mem_tenantsAt_iff h.shaped hq,
      h.exists_giveUp hleaf fun path _ => path = q]
    constructor
    · rintro ⟨x, hx, rfl, hv, hc⟩
      exact ⟨⟨x, hx, rfl, hv⟩, hc⟩
    · rintro ⟨⟨x, hx, rfl, hv⟩, hc⟩
      exact ⟨x, hx, rfl, hv, hc⟩

theorem Sound.childCarries_giveUp : (t.giveUp p u).childCarries q v = true ↔
      ∃ x ∈ t.nodes, x.parent = q ∧ v ∈ x.data.tenants ∧ ¬ (v = u ∧ x.path = p) := by
  rw [childCarries_iff]
  exact h.exists_giveUp hleaf fun path start => path.take start = q

/-- The tenant has the characters of the node less, the others have what they had. -/
theorem Sound.usedSize_giveUp (v : String) :
    t.usedSize v = (t.giveUp p u).usedSize v + if v = u then t.charCountAt p else 0 := by
  by_cases hp : p = []
  · subst hp
    rw [h.giveUp_root]
    simp [charCountAt, h.node?_nil, usedSize]
  · obtain ⟨e, he, rfl, hue⟩ := exists_of_mem_tenantsAt hleaf.1 hp
    have hcount : t.charCountAt e.path = e.data.text.charCount := by
      simp [charCountAt, h.shaped.node?_eq he]
    have hzero : ∀ x : PathNode Char TreeNode, x.data.tenants.keys = [] →
        (if v ∈ x.data.tenants then x.data.text.charCount else 0) = 0 :=
      fun x hx => if_neg (not_mem_of_keys hx)
    rw [usedSize, usedSize, h.sum_giveUp he hleaf hzero, sum_remove h.shaped he, hcount]
    simp only [TreeNode.without, AList.mem_erase]
    by_cases hvu : v = u
    · simp [hvu, hue, Nat.add_comm]
    · simp [hvu]

theorem Sound.ownerships_giveUp :
    t.ownerships = (t.giveUp p u).ownerships + 1 := by
  have herase : ∀ m : TenantMap, u ∈ m → m.keys.length = (m.erase u).keys.length + 1 := by
    intro m hu
    rw [AList.keys_erase, length_erase_of_mem (AList.mem_keys.mp hu)]
    have := length_pos_of_mem (AList.mem_keys.mp hu)
    omega
  rw [ownerships, ownerships, h.rootTenants_giveUp hleaf]
  by_cases hp : p = []
  · subst hp
    rw [h.giveUp_root, if_pos rfl, herase t.rootTenants hleaf.1]
    exact Nat.add_right_comm ..
  · obtain ⟨e, he, rfl, hue⟩ := exists_of_mem_tenantsAt hleaf.1 hp
    have hzero : ∀ x : PathNode Char TreeNode, x.data.tenants.keys = [] →
        x.data.tenants.keys.length = 0 := fun x hx => by rw [hx]; rfl
    rw [if_neg hp, h.sum_giveUp he hleaf hzero, sum_remove h.shaped he, herase _ hue]
    simp only [TreeNode.without]
    omega

theorem Sound.of_mem_giveUp (hx : x ∈ (t.giveUp p u).nodes) :
    (∃ w, w ∈ x.data.tenants) ∧ ∃ y ∈ t.nodes, ∃ m : TenantMap, (∀ v ∈ m, v ∈ y.data.tenants) ∧
      x = { y with data := { y.data with tenants := m } } := by
  have hold : ∀ x ∈ t.nodes, (∃ w, w ∈ x.data.tenants) ∧ ∃ y ∈ t.nodes, ∃ m : TenantMap,
      (∀ v ∈ m, v ∈ y.data.tenants) ∧ x = { y with data := { y.data with tenants := m } } :=
    fun x hx => ⟨h.owned x hx, x, hx, x.data.tenants, fun _ => id, rfl⟩
  by_cases hp : p = []
  · subst hp
    rw [h.giveUp_root] at hx
    exact hold x hx
  · obtain ⟨e, he, rfl, -⟩ := exists_of_mem_tenantsAt hleaf.1 hp
    rcases (h.mem_giveUp he hleaf).mp hx with ⟨hx, -⟩ | ⟨rfl, w, hw, hwu⟩
    · exact hold x hx
    · exact ⟨⟨w, AList.mem_erase.mpr ⟨hwu, hw⟩⟩, e, he, _, fun v hv => (AList.mem_erase.mp hv).2, rfl⟩

theorem Sound.giveUp (hskip : skip u) : (t.giveUp p u).Sound skip := by
  refine sound_of_nodes (h.shaped_giveUp hleaf) (fun x hx => ?_) fun v hv => ?_
  · obtain ⟨hown, y, hy, m, hm, rfl⟩ := h.of_mem_giveUp hleaf hx
    refine { h.node hy with owned := hown, above := fun v hv => ?_ }
    refine (h.mem_tenantsAt_giveUp hleaf).mpr ⟨h.above y hy v (hm v hv), ?_⟩
    rintro ⟨rfl, hparent⟩
    exact hleaf.not_mem hy hparent (hm v hv)
  · have hvu : v ≠ u := fun hvu => hv (hvu ▸ hskip)
    have hsize := h.usedSize_giveUp hleaf v
    rw [if_neg hvu, Nat.add_zero] at hsize
    rw [h.tenantCharCount_giveUp hleaf, ← hsize]
    exact h.counted v hv

end

/-! ## Leaves of a tenant -/

theorem Sound.not_mem_below (h : t.Sound skip) (hleaf : t.IsLeaf p u) (hpq : p <+: q)
    (hne : q ≠ p) : u ∉ t.tenantsAt q := by
  induction hn : q.length using Nat.strong_induction_on generalizing q with
  | _ n ih =>
    intro hu
    have hq : q ≠ [] := fun hq => hne (by rw [hq] at hpq ⊢; exact (prefix_nil.mp hpq).symm)
    obtain ⟨e, he, rfl, hue⟩ := exists_of_mem_tenantsAt hu hq
    have hstart := h.shaped.start_lt e he
    have hlen := h.shaped.length_parent he
    by_cases hparent : e.parent = p
    · exact hleaf.not_mem he hparent hue
    · refine ih _ (by omega) ?_ hparent rfl (h.above e he u hue)
      exact h.begins_parent he hpq hne.symm (holds_of_mem_tenantsAt hleaf.1)

theorem exists_isLeaf (hT : t.nodes.Shaped) (hu : u ∈ t.tenantsAt p) : ∃ q, t.IsLeaf q u := by
  by_contra hnone
  -- otherwise there are nodes of the tenant of every depth
  have hdeep : ∀ n, ∃ q, u ∈ t.tenantsAt q ∧ n ≤ q.length := by
    intro n
    induction n with
    | zero => exact ⟨p, hu, Nat.zero_le _⟩
    | succ n ih =>
      obtain ⟨q, huq, hn⟩ := ih
      have hchild : t.childCarries q u = true := by
        by_contra hc
        exact hnone ⟨q, huq, by simpa using hc⟩
      obtain ⟨e, he, hparent, hue⟩ := childCarries_iff.mp hchild
      have hlt := hT.start_lt e he
      have hlen := hT.length_parent he
      rw [hparent] at hlen
      refine ⟨e.path, (mem_tenantsAt_iff hT ?_).mpr ⟨e, he, rfl, hue⟩, by omega⟩
      intro hnil
      simp [hnil] at hlt
  obtain ⟨q, huq, hq⟩ := hdeep ((t.nodes.map (·.path.length)).sum + 1)
  have hne : q ≠ [] := fun hnil => by simp [hnil] at hq
  obtain ⟨e, he, rfl, -⟩ := exists_of_mem_tenantsAt huq hne
  have := single_le_sum (fun _ _ => Nat.zero_le _) _
    (mem_map_of_mem (f := fun e : PathNode Char TreeNode => e.path.length) he)
  omega

end Tree

end LLM42.Gateway
