import LLM42.Gateway.PrefixTree
import Mathlib.Data.List.Find

/-! # What the prefix tree keeps

`Sound` is what holds of a tree between the steps of any call: the shape, where the children are
filed, who owns which node, and the counts. Every change that a step makes is one of a few, and each
of them keeps it. -/

namespace LLM42.Gateway

open Library List PathTree

namespace Tree

/-- What holds of a tree; `skip` are tenants whose counts are being worked on. -/
structure Sound (skip : String → Prop) (t : Tree) : Prop where
  shaped : t.nodes.Shaped
  filed : ∀ e ∈ t.nodes, e.key.head? = some e.data.slot
  texts : ∀ e ∈ t.nodes, e.data.text = NodeText.new e.key
  owned : ∀ e ∈ t.nodes, ∃ u, u ∈ e.data.tenants
  above : ∀ e ∈ t.nodes, ∀ u ∈ e.data.tenants, u ∈ t.tenantsAt e.parent
  counted : ∀ u, ¬ skip u → (t.tenantCharCount.lookup u).getD 0 = t.usedSize u

variable {skip : String → Prop} {t : Tree} {e : PathNode Char TreeNode} {p q : List Char}
  {u v : String} {f : TenantMap → TenantMap}

structure NodeSound (t : Tree) (e : PathNode Char TreeNode) : Prop where
  filed : e.key.head? = some e.data.slot
  texts : e.data.text = NodeText.new e.key
  owned : ∃ u, u ∈ e.data.tenants
  above : ∀ u ∈ e.data.tenants, u ∈ t.tenantsAt e.parent

theorem sound_of_nodes (shaped : t.nodes.Shaped) (nodes : ∀ e ∈ t.nodes, t.NodeSound e)
    (counted : ∀ u, ¬ skip u → (t.tenantCharCount.lookup u).getD 0 = t.usedSize u) :
    t.Sound skip :=
  ⟨shaped, fun e he => (nodes e he).filed, fun e he => (nodes e he).texts,
    fun e he => (nodes e he).owned, fun e he => (nodes e he).above, counted⟩

theorem Sound.node (h : t.Sound skip) (he : e ∈ t.nodes) : t.NodeSound e :=
  ⟨h.filed e he, h.texts e he, h.owned e he, h.above e he⟩

theorem Sound.path_ne_nil (h : t.Sound skip) (he : e ∈ t.nodes) : e.path ≠ [] := by
  intro hp
  have := h.shaped.start_lt e he
  simp [hp] at this

theorem Sound.tenantsAt_path (h : t.Sound skip) (he : e ∈ t.nodes) :
    t.tenantsAt e.path = e.data.tenants := by
  simp [tenantsAt, h.path_ne_nil he, h.shaped.node?_eq he]

@[simp] theorem tenantsAt_nil (t : Tree) : t.tenantsAt [] = t.rootTenants := rfl

theorem exists_of_mem_tenantsAt (h : u ∈ t.tenantsAt p) (hp : p ≠ []) :
    ∃ e ∈ t.nodes, e.path = p ∧ u ∈ e.data.tenants := by
  simp only [tenantsAt, hp, if_false] at h
  cases hn : t.nodes.node? p with
  | none => simp [hn] at h
  | some e =>
    obtain ⟨he, hep⟩ := mem_of_node? hn
    exact ⟨e, he, hep, by simpa [hn] using h⟩

theorem mem_tenantsAt_iff (hT : t.nodes.Shaped) (hp : p ≠ []) :
    u ∈ t.tenantsAt p ↔ ∃ e ∈ t.nodes, e.path = p ∧ u ∈ e.data.tenants := by
  refine ⟨fun h => exists_of_mem_tenantsAt h hp, ?_⟩
  rintro ⟨e, he, rfl, hu⟩
  simpa [tenantsAt, hp, hT.node?_eq he] using hu

theorem holds_of_mem_tenantsAt (h : u ∈ t.tenantsAt p) : t.nodes.Holds p := by
  by_cases hp : p = []
  · exact .inl hp
  · obtain ⟨e, he, hep, -⟩ := exists_of_mem_tenantsAt h hp
    exact .inr ⟨e, he, hep⟩

/-- Looking a child up by the character it is filed under is looking it up by its text. -/
theorem child?_eq_of_filed (hT : t.nodes.Shaped)
    (hfiled : ∀ e ∈ t.nodes, e.key.head? = some e.data.slot) (p : List Char) (c : Char) :
    t.child? p c = t.nodes.child? p c := by
  refine find?_congr fun e he => ?_
  have hlen := hT.length_parent he
  have hfiled := hfiled e he
  rw [decide_eq_decide]
  constructor
  · rintro ⟨rfl, rfl⟩
    refine ⟨hlen.symm, ?_⟩
    obtain ⟨s, rest, hk⟩ := exists_cons_of_ne_nil (hT.key_ne_nil he)
    rw [hk] at hfiled
    have hs : s = e.data.slot := by simpa using hfiled
    conv_lhs => rw [← e.parent_append_key, hk]
    rw [take_append]
    simp [hs]
  · rintro ⟨hs, htake⟩
    have hc : t.nodes.child? p c = some e := hT.child?_eq he hs htake
    obtain ⟨-, hp, hk⟩ := hT.parent_of_child? hc
    refine ⟨hp, ?_⟩
    rw [hfiled] at hk
    exact Option.some.inj hk

theorem Sound.child?_eq (h : t.Sound skip) (p : List Char) (c : Char) :
    t.child? p c = t.nodes.child? p c :=
  child?_eq_of_filed h.shaped h.filed p c

theorem childCarries_iff : t.childCarries p u = true ↔
    ∃ e ∈ t.nodes, e.parent = p ∧ u ∈ e.data.tenants := by
  simp [childCarries]

/-! ## Changes -/

theorem tenantsAt_editTenants (hT : t.nodes.Shaped) (hp : t.nodes.Holds p) :
    (t.editTenants p f).tenantsAt q = if q = p then f (t.tenantsAt p) else t.tenantsAt q := by
  unfold editTenants
  by_cases hpn : p = []
  · by_cases hq : q = []
    · simp [hpn, hq, tenantsAt]
    · simp [hpn, hq, tenantsAt]
  · obtain ⟨e, he, rfl⟩ := hp.resolve_left hpn
    by_cases hq : q = []
    · simp [hpn, hq, tenantsAt, Ne.symm hpn]
    · simp only [hpn, if_false, tenantsAt, hq, edit, node?_mapData]
      by_cases hqp : q = e.path
      · simp [hqp, hT.node?_eq he]
      · cases hn : t.nodes.node? q with
        | none => simp [hqp]
        | some g =>
          have hg := (mem_of_node? hn).2
          simp [hqp, hg]

theorem Sound.mapData (h : t.Sound skip) {g : PathNode Char TreeNode → TreeNode}
    {root : TenantMap} {last : Option String} (hslot : ∀ e ∈ t.nodes, (g e).slot = e.data.slot)
    (htext : ∀ e ∈ t.nodes, (g e).text = e.data.text)
    (htenants : ∀ e ∈ t.nodes, ∀ u, u ∈ (g e).tenants ↔ u ∈ e.data.tenants)
    (hroot : ∀ u, u ∈ root ↔ u ∈ t.rootTenants) :
    Sound skip { t with
      rootTenants := root, rootLastTenant := last, nodes := t.nodes.mapData g } := by
  refine sound_of_nodes h.shaped.mapData (fun x hx => ?_) fun u hu => ?_
  · obtain ⟨e, he, rfl⟩ := mem_mapData.mp hx
    obtain ⟨w, hw⟩ := h.owned e he
    refine ⟨(h.filed e he).trans (congrArg some (hslot e he).symm),
      (htext e he).trans (h.texts e he), ⟨w, (htenants e he w).mpr hw⟩, fun u hu => ?_⟩
    have hup := h.above e he u ((htenants e he u).mp hu)
    change u ∈ tenantsAt _ e.parent
    by_cases hnil : e.parent = []
    · rw [hnil] at hup ⊢
      exact (hroot u).mpr hup
    · obtain ⟨f, hf, hfp, huf⟩ := exists_of_mem_tenantsAt hup hnil
      simp only [tenantsAt, hnil, if_false, node?_mapData]
      rw [← hfp, h.shaped.node?_eq hf]
      exact (htenants f hf u).mpr huf
  · refine (h.counted u hu).trans ?_
    simp only [usedSize, PathTree.mapData, map_map]
    refine congrArg List.sum (map_congr_left fun e he => ?_)
    simp only [Function.comp, htenants e he, htext e he]

theorem Sound.setLastTenant (h : t.Sound skip) (p : List Char) (u : String) :
    (t.setLastTenant p u).Sound skip := by
  unfold Tree.setLastTenant
  split
  · exact { h with }
  · refine h.mapData ?_ ?_ ?_ fun _ => Iff.rfl
    all_goals
      intro e _
      by_cases he : e.path = p <;> simp [he]

theorem Sound.touch (h : t.Sound skip) (hu : u ∈ t.tenantsAt p) (epoch : Nat) :
    (t.editTenants p (·.insert u epoch)).Sound skip := by
  unfold editTenants
  split
  · next hp =>
    rw [hp] at hu
    have hroot : ∀ v, v ∈ t.rootTenants.insert u epoch ↔ v ∈ t.rootTenants := by
      intro v
      rw [AList.mem_insert]
      exact ⟨fun hv => hv.elim (fun hv => hv ▸ hu) id, .inr⟩
    have hid : t.nodes.mapData (·.data) = t.nodes := by simp [PathTree.mapData]
    have hsound : Sound skip { t with
        rootTenants := t.rootTenants.insert u epoch, nodes := t.nodes.mapData (·.data) } :=
      h.mapData (fun _ _ => rfl) (fun _ _ => rfl) (fun _ _ _ => Iff.rfl) hroot
    rwa [hid] at hsound
  · next hp =>
    obtain ⟨e, he, rfl, hue⟩ := exists_of_mem_tenantsAt hu hp
    refine h.mapData ?_ ?_ ?_ fun _ => Iff.rfl
    · intro x _
      by_cases hx : x.path = e.path <;> simp [hx]
    · intro x _
      by_cases hx : x.path = e.path <;> simp [hx]
    · intro x hx v
      by_cases hxe : x.path = e.path
      · obtain rfl := h.shaped.eq_of_path hx he hxe
        simp only [if_true, AList.mem_insert]
        exact ⟨fun hv => hv.elim (fun hv => hv ▸ hue) id, .inr⟩
      · simp [hxe]

theorem usedSize_of_not_mem (h : ∀ e ∈ t.nodes, u ∉ e.data.tenants) : t.usedSize u = 0 := by
  refine sum_eq_zero fun n hn => ?_
  obtain ⟨e, he, rfl⟩ := mem_map.mp hn
  simp [h e he]

theorem Sound.addRoot (h : t.Sound skip) (u : String) (n : Nat) :
    Sound skip { t with rootTenants := t.rootTenants.insert u n } := by
  refine { h with above := fun e he v hv => ?_ }
  have hup := h.above e he v hv
  by_cases hnil : e.parent = []
  · rw [hnil] at hup ⊢
    exact (AList.mem_insert _).mpr (.inr hup)
  · simpa [tenantsAt, hnil] using hup

theorem Sound.addCountZero (h : t.Sound skip) (hu : u ∉ t.tenantCharCount) :
    Sound skip { t with tenantCharCount := t.tenantCharCount.insert u 0 } := by
  refine { h with counted := fun v hv => ?_ }
  refine Eq.trans ?_ (h.counted v hv)
  by_cases hvu : v = u
  · rw [hvu, AList.lookup_insert, AList.lookup_eq_none.mpr hu]
    rfl
  · rw [AList.lookup_insert_ne hvu]

theorem Sound.claim (h : t.Sound skip) (he : e ∈ t.nodes) (hup : u ∈ t.tenantsAt e.parent) :
    (t.claim e.path e.key.length u).Sound skip := by
  unfold Tree.claim
  split
  · exact h
  next hu =>
  rw [h.tenantsAt_path he] at hu
  have hpath := h.path_ne_nil he
  have hmem := fun x => @PathTree.mem_edit Char TreeNode t.nodes e x _ h.shaped he
    fun d => { d with tenants := d.tenants.insert u 0 }
  have hkeep : ∀ p v, v ∈ t.tenantsAt p →
      v ∈ ((t.addCount u e.key.length).editTenants e.path (·.insert u 0)).tenantsAt p := by
    intro p v hv
    rw [tenantsAt_editTenants (t := t.addCount u e.key.length) h.shaped (.inr ⟨e, he, rfl⟩)]
    split
    · next hp => exact (AList.mem_insert _).mpr (.inr (hp ▸ hv))
    · exact hv
  have hnodes : ((t.addCount u e.key.length).editTenants e.path (·.insert u 0)).nodes =
      t.nodes.edit e.path fun d => { d with tenants := d.tenants.insert u 0 } := by
    simp [editTenants, hpath, addCount]
  refine sound_of_nodes (hnodes ▸ h.shaped.edit) (fun x hx => ?_) fun v hv => ?_
  · rw [hnodes] at hx
    rcases (hmem x).mp hx with rfl | ⟨hx, -⟩
    · refine ⟨h.filed e he, h.texts e he, ⟨u, (AList.mem_insert _).mpr (.inl rfl)⟩, fun v hv => ?_⟩
      rcases (AList.mem_insert _).mp hv with rfl | hv
      · exact hkeep _ _ hup
      · exact hkeep _ _ (h.above e he v hv)
    · exact { h.node hx with above := fun v hv => hkeep _ _ (h.above x hx v hv) }
  · have hold := h.counted v hv
    rw [usedSize, sum_remove h.shaped he, h.texts e he] at hold
    rw [usedSize, hnodes, sum_edit h.shaped he, h.texts e he]
    have hcount : ((t.addCount u e.key.length).editTenants e.path (·.insert u 0)).tenantCharCount =
        t.tenantCharCount.insert u ((t.tenantCharCount.lookup u).getD 0 + e.key.length) := by
      simp [editTenants, hpath, addCount]
    rw [hcount]
    by_cases hvu : v = u
    · subst hvu
      simp only [hu, if_false, Nat.zero_add] at hold
      simp only [AList.lookup_insert, Option.getD_some, hold, AList.mem_insert, true_or, if_true,
        NodeText.new]
      omega
    · rw [AList.lookup_insert_ne hvu, hold]
      simp only [AList.mem_insert, hvu, false_or, NodeText.new]

section Split

variable {n : Nat}

theorem cut_new {d : TreeNode} {key : List Char} (htext : d.text = NodeText.new key) (hpos : 0 < n)
    (hlt : n < key.length) :
    TreeNode.cut n d = ({ d with text := NodeText.new (key.take n) },
      { d with slot := (key.drop n).headD d.slot, text := NodeText.new (key.drop n) }) := by
  have hsplit : d.text.splitAtChar n =
      (NodeText.new (key.take n), NodeText.new (key.drop n)) := by
    rw [htext, NodeText.splitAtChar_eq _ rfl hpos hlt]
    simp [NodeText.new, hlt.le]
  simp only [TreeNode.cut, hsplit]
  rfl

theorem Sound.tenantsAt_split (h : t.Sound skip) (he : e ∈ t.nodes) (hpos : 0 < n)
    (hlt : n < e.key.length) (hp : t.nodes.Holds p) :
    tenantsAt { t with nodes := t.nodes.split TreeNode.cut e n } p = t.tenantsAt p := by
  rcases hp with rfl | ⟨x, hx, rfl⟩
  · rfl
  have hT' := h.shaped.split TreeNode.cut he hpos hlt
  rw [h.tenantsAt_path hx]
  simp only [tenantsAt, h.path_ne_nil hx, if_false]
  by_cases hxe : x = e
  · subst hxe
    have hnode := hT'.node?_eq ((mem_split h.shaped he).mpr (.inr (.inl rfl)))
    rw [show (lower TreeNode.cut x n).path = x.path from rfl] at hnode
    rw [hnode]
    rfl
  · rw [hT'.node?_eq ((mem_split h.shaped he).mpr (.inr (.inr ⟨hx, hxe⟩)))]
    rfl

theorem Sound.tenantsAt_upper (h : t.Sound skip) (he : e ∈ t.nodes) (hpos : 0 < n)
    (hlt : n < e.key.length) :
    tenantsAt { t with nodes := t.nodes.split TreeNode.cut e n }
      (upper TreeNode.cut e n).path = e.data.tenants := by
  have hT' := h.shaped.split TreeNode.cut he hpos hlt
  have hmem : upper TreeNode.cut e n ∈ t.nodes.split TreeNode.cut e n :=
    (mem_split h.shaped he).mpr (.inl rfl)
  have hne : (upper TreeNode.cut e n).path ≠ [] := by
    intro hnil
    have := hT'.start_lt _ hmem
    simp [hnil] at this
  simp only [tenantsAt, hne, if_false, hT'.node?_eq hmem]
  rfl

theorem Sound.split (h : t.Sound skip) (he : e ∈ t.nodes) (hpos : 0 < n) (hlt : n < e.key.length) :
    Sound skip { t with nodes := t.nodes.split TreeNode.cut e n } := by
  have hcut := cut_new (h.texts e he) hpos hlt
  have hfiled := h.filed e he
  have hmem := fun x => @PathTree.mem_split Char TreeNode TreeNode.cut t.nodes e x n _ h.shaped he
  refine sound_of_nodes (h.shaped.split _ he hpos hlt) (fun x hx => ?_) fun u hu => ?_
  · rcases (hmem x).mp hx with rfl | rfl | ⟨hx, -⟩
    · refine ⟨?_, by rw [key_upper, upper, hcut], h.owned e he, fun u hu => ?_⟩
      · rw [key_upper, upper, hcut, head?_take, if_neg hpos.ne']
        exact hfiled
      · rw [parent_upper, h.tenantsAt_split he hpos hlt (h.shaped.parent_mem e he)]
        exact h.above e he u hu
    · refine ⟨?_, by rw [key_lower, lower, hcut], h.owned e he, fun u hu => ?_⟩
      · rw [key_lower, lower, hcut]
        obtain ⟨c, rest, hc⟩ := exists_cons_of_ne_nil (show e.key.drop n ≠ [] by simpa using hlt)
        simp [hc]
      · change u ∈ tenantsAt _ (upper TreeNode.cut e n).path
        rw [h.tenantsAt_upper he hpos hlt]
        exact hu
    · refine { h.node hx with above := fun u hu => ?_ }
      rw [h.tenantsAt_split he hpos hlt (h.shaped.parent_mem x hx)]
      exact h.above x hx u hu
  · refine (h.counted u hu).trans (sum_split h.shaped he ?_).symm
    simp only [upper, lower, hcut, h.texts e he, NodeText.new, length_take,
      length_drop]
    split
    · omega
    · rfl

end Split

section Attach

variable {c : Char} {rest : List Char} {epoch : Nat}

theorem Sound.shaped_attachLeaf (h : t.Sound skip) (hfree : t.child? p c = none)
    (hp : t.nodes.Holds p) : (t.attachLeaf p (c :: rest) c u epoch).nodes.Shaped :=
  h.shaped.attach hp ((h.child?_eq p c).symm.trans hfree)

theorem Sound.mem_tenantsAt_attachLeaf (h : t.Sound skip) (hfree : t.child? p c = none)
    (hp : t.nodes.Holds p) (hv : v ∈ t.tenantsAt q) :
    v ∈ (t.attachLeaf p (c :: rest) c u epoch).tenantsAt q := by
  by_cases hq : q = []
  · simpa [tenantsAt, hq, attachLeaf, addCount] using hv
  · obtain ⟨x, hx, rfl, hvx⟩ := exists_of_mem_tenantsAt hv hq
    have hmem : x ∈ (t.attachLeaf p (c :: rest) c u epoch).nodes := mem_cons_of_mem _ hx
    simp only [tenantsAt, hq, if_false, (h.shaped_attachLeaf hfree hp).node?_eq hmem]
    exact hvx

theorem Sound.mem_tenantsAt_leaf (h : t.Sound skip) (hfree : t.child? p c = none)
    (hp : t.nodes.Holds p) :
    u ∈ (t.attachLeaf p (c :: rest) c u epoch).tenantsAt (p ++ c :: rest) := by
  have hshaped : (t.attachLeaf p (c :: rest) c u epoch).nodes.Shaped :=
    h.shaped_attachLeaf hfree hp
  have hnode := hshaped.node?_eq (mem_cons_self ..)
  simp only [tenantsAt, append_eq_nil_iff, reduceCtorEq, and_false, if_false]
  rw [hnode]
  simp [AList.mem_keys]

theorem Sound.attach (h : t.Sound skip) (hfree : t.child? p c = none) (hu : u ∈ t.tenantsAt p) :
    (t.attachLeaf p (c :: rest) c u epoch).Sound skip := by
  have hp := holds_of_mem_tenantsAt hu
  have hkeep : ∀ q v, v ∈ t.tenantsAt q →
      v ∈ (t.attachLeaf p (c :: rest) c u epoch).tenantsAt q :=
    fun q v => h.mem_tenantsAt_attachLeaf hfree hp
  refine sound_of_nodes (h.shaped_attachLeaf hfree hp) ?_ ?_
  · rintro x (_ | ⟨_, hx⟩)
    · refine ⟨by simp [PathNode.key], by simp [PathNode.key], ⟨u, by simp [AList.mem_keys]⟩,
        fun v hv => ?_⟩
      have hvu : v = u := by simpa [AList.mem_keys] using hv
      have hparent : (p ++ c :: rest).take p.length = p := take_left
      simp only [PathNode.parent, hparent, hvu]
      exact hkeep p u hu
    · exact { h.node hx with above := fun v hv => hkeep _ _ (h.above x hx v hv) }
  · intro v hv
    have hold := h.counted v hv
    simp only [usedSize, attachLeaf, PathTree.attach, map_cons, sum_cons,
      NodeText.new] at hold ⊢
    rw [← hold]
    by_cases hvu : v = u
    · subst hvu
      simp only [addCount, AList.lookup_insert, Option.getD_some]
      rw [if_pos (by simp [AList.mem_keys])]
      exact Nat.add_comm _ _
    · rw [addCount, AList.lookup_insert_ne hvu, if_neg (by simpa [AList.mem_keys] using hvu),
        Nat.zero_add]

end Attach

/-! ## Insert -/

def Retains (t : Tree) (u : String) (p : List Char) : Prop := ∃ q, p <+: q ∧ u ∈ t.tenantsAt q

theorem retains_of_mem (h : u ∈ t.tenantsAt p) : t.Retains u p := ⟨p, prefix_rfl, h⟩

theorem Sound.begins_parent (h : t.Sound skip) (he : e ∈ t.nodes) (hpe : p <+: e.path)
    (hne : p ≠ e.path) (hp : t.nodes.Holds p) : p <+: e.parent := by
  rw [PathNode.parent, prefix_take_iff]
  refine ⟨hpe, Nat.le_of_not_lt fun hlt => ?_⟩
  rcases hp with rfl | ⟨g, hg, rfl⟩
  · simp at hlt
  · exact hne (congrArg _ (h.shaped.not_covers_longer hg he hpe hlt))

theorem Sound.mem_of_retains (h : t.Sound skip) (hret : t.Retains u p) (hp : t.nodes.Holds p) :
    u ∈ t.tenantsAt p := by
  obtain ⟨q, hpq, hu⟩ := hret
  induction hn : q.length using Nat.strong_induction_on generalizing q with
  | _ n ih =>
    by_cases hqp : p = q
    · rwa [hqp]
    have hq : q ≠ [] := fun hq => hqp (by rw [hq] at hpq ⊢; exact prefix_nil.mp hpq)
    obtain ⟨e, he, rfl, hue⟩ := exists_of_mem_tenantsAt hu hq
    have hstart := h.shaped.start_lt e he
    have hlen := h.shaped.length_parent he
    exact ih _ (by omega) e.parent (h.begins_parent he hpq hqp hp) (h.above e he u hue) rfl

/-- Owners are only added, and only of what begins the text that `u` inserts; a count is added for
`u` at most. -/
structure Grows (u : String) (text : List Char) (t t' : Tree) : Prop where
  carries : ∀ p v, v ∈ t.tenantsAt p → v ∈ t'.tenantsAt p
  only : ∀ p v, v ∈ t'.tenantsAt p → t.Retains v p ∨ v = u ∧ p <+: text
  counts : ∀ v, v ∈ t.tenantCharCount → v ∈ t'.tenantCharCount
  countsOnly : ∀ v, v ∈ t'.tenantCharCount → v ∈ t.tenantCharCount ∨ v = u

theorem Grows.refl (u : String) (text : List Char) (t : Tree) : Grows u text t t :=
  ⟨fun _ _ => id, fun _ _ hv => .inl (retains_of_mem hv), fun _ => id, fun _ => .inl⟩

theorem Grows.trans {text : List Char} {t₁ t₂ t₃ : Tree} (h : Grows u text t₁ t₂)
    (h' : Grows u text t₂ t₃) : Grows u text t₁ t₃ where
  carries p v hv := h'.carries p v (h.carries p v hv)
  only p v hv := by
    rcases h'.only p v hv with ⟨q, hpq, hq⟩ | hnew
    · rcases h.only q v hq with ⟨r, hqr, hr⟩ | ⟨rfl, hq⟩
      · exact .inl ⟨r, hpq.trans hqr, hr⟩
      · exact .inr ⟨rfl, hpq.trans hq⟩
    · exact .inr hnew
  counts v hv := h'.counts v (h.counts v hv)
  countsOnly v hv := (h'.countsOnly v hv).elim (h.countsOnly v) .inr

@[simp] theorem tenantCharCount_editTenants :
    (t.editTenants p f).tenantCharCount = t.tenantCharCount := by
  unfold editTenants
  split <;> rfl

section Growth

variable {text : List Char} {n : Nat}

theorem Grows.editTenants (hT : t.nodes.Shaped) (hp : t.nodes.Holds p) (htext : p <+: text) :
    Grows u text t (t.editTenants p (·.insert u n)) where
  carries q v hv := by
    rw [tenantsAt_editTenants hT hp]
    split
    · next hq => exact (AList.mem_insert _).mpr (.inr (hq ▸ hv))
    · exact hv
  only q v hv := by
    rw [tenantsAt_editTenants hT hp] at hv
    split at hv
    · next hq =>
      subst hq
      rcases (AList.mem_insert _).mp hv with rfl | hv
      · exact .inr ⟨rfl, htext⟩
      · exact .inl (retains_of_mem hv)
    · exact .inl (retains_of_mem hv)
  counts v hv := by rwa [tenantCharCount_editTenants]
  countsOnly v hv := by
    rw [tenantCharCount_editTenants] at hv
    exact .inl hv

theorem Grows.setCount (u : String) (text : List Char) (t : Tree) (n : Nat) :
    Grows u text t { t with tenantCharCount := t.tenantCharCount.insert u n } :=
  ⟨fun _ _ => id, fun _ _ hv => .inl (retains_of_mem hv),
    fun _ hv => (AList.mem_insert _).mpr (.inr hv),
    fun _ hv => ((AList.mem_insert _).mp hv).symm⟩

theorem Sound.grows_claim (h : t.Sound skip) (he : e ∈ t.nodes) (htext : e.path <+: text) :
    Grows u text t (t.claim e.path n u) ∧ u ∈ (t.claim e.path n u).tenantsAt e.path := by
  unfold Tree.claim
  split
  · next hu => exact ⟨.refl u text t, hu⟩
  · have hholds : (t.addCount u n).nodes.Holds e.path := .inr ⟨e, he, rfl⟩
    have hedit : Grows u text (t.addCount u n)
        ((t.addCount u n).editTenants e.path (·.insert u 0)) :=
      Grows.editTenants (t := t.addCount u n) h.shaped hholds htext
    refine ⟨(Grows.setCount u text t _).trans hedit, ?_⟩
    rw [tenantsAt_editTenants (t := t.addCount u n) h.shaped hholds, if_pos rfl]
    exact (AList.mem_insert _).mpr (.inl rfl)

theorem Sound.grows_split (h : t.Sound skip) (he : e ∈ t.nodes) (hpos : 0 < n)
    (hlt : n < e.key.length) :
    Grows u text t { t with nodes := t.nodes.split TreeNode.cut e n } where
  carries p v hv := by
    rw [h.tenantsAt_split he hpos hlt (holds_of_mem_tenantsAt hv)]
    exact hv
  only p v hv := by
    rcases (holds_split h.shaped he).mp (holds_of_mem_tenantsAt hv) with hp | rfl
    · rw [h.tenantsAt_split he hpos hlt hp] at hv
      exact .inl (retains_of_mem hv)
    · -- the upper half has the owners of the whole, which goes on from it
      rw [h.tenantsAt_upper he hpos hlt] at hv
      exact .inl ⟨e.path, take_prefix _ _, (h.tenantsAt_path he).symm ▸ hv⟩
  counts _ := id
  countsOnly _ := .inl

theorem Sound.grows_attach {c : Char} {rest : List Char} {epoch : Nat} (h : t.Sound skip)
    (hfree : t.child? p c = none) (hp : t.nodes.Holds p) (htext : p ++ c :: rest <+: text) :
    Grows u text t (t.attachLeaf p (c :: rest) c u epoch) where
  carries _ _ := h.mem_tenantsAt_attachLeaf hfree hp
  only q v hv := by
    by_cases hq : q = []
    · refine .inl (retains_of_mem ?_)
      rw [hq] at hv ⊢
      exact hv
    · obtain ⟨x, hx, rfl, hvx⟩ := exists_of_mem_tenantsAt hv hq
      rcases mem_cons.mp hx with rfl | hx
      · have hvu : v = u := by simpa [AList.mem_keys] using hvx
        exact .inr ⟨hvu, htext⟩
      · exact .inl (retains_of_mem ((h.tenantsAt_path hx).symm ▸ hvx))
  counts := (Grows.setCount u text t _).counts
  countsOnly := (Grows.setCount u text t _).countsOnly

end Growth

/-- Where an insertion stands after a turn of its loop. -/
inductive Walked (t' : Tree) (u : String) (prev remaining : List Char) : InsertPc → Prop
  | done : u ∈ t'.tenantsAt (prev ++ remaining) → Walked t' u prev remaining .done
  | walking {prev' remaining' : List Char} : prev' ++ remaining' = prev ++ remaining →
      remaining'.length < remaining.length → u ∈ t'.tenantsAt prev' →
      Walked t' u prev remaining (.walking prev' remaining')

theorem Sound.insertWalk (h : t.Sound skip) (hu : u ∈ t.tenantsAt p) (epoch : Nat) (remaining : List Char) :
    (t.insertWalk u epoch p remaining).1.Sound skip ∧
      Grows u (p ++ remaining) t (t.insertWalk u epoch p remaining).1 ∧
      Walked (t.insertWalk u epoch p remaining).1 u p remaining
        (t.insertWalk u epoch p remaining).2 := by
  have hp := holds_of_mem_tenantsAt hu
  cases remaining with
  | nil =>
    rw [append_nil]
    refine ⟨h.touch hu epoch, .editTenants h.shaped hp prefix_rfl, .done ?_⟩
    rw [append_nil]
    simp only [Tree.insertWalk]
    rw [tenantsAt_editTenants h.shaped hp, if_pos rfl]
    exact (AList.mem_insert _).mpr (.inl rfl)
  | cons c rest =>
    simp only [Tree.insertWalk]
    cases hc : t.child? p c with
    | none =>
      exact ⟨h.attach hc hu, h.grows_attach hc hp prefix_rfl,
        .done (h.mem_tenantsAt_leaf hc hp)⟩
    | some e =>
      rw [h.child?_eq] at hc
      obtain ⟨he, rfl, hhead⟩ := h.shaped.parent_of_child? hc
      have hpos : 0 < keyMatch (c :: rest) e.key :=
        keyMatch_pos (by rw [hhead, head?_cons]) (h.shaped.key_ne_nil he)
      have htake := take_keyMatch (c :: rest) e.key
      have hleft := keyMatch_le_left (c :: rest) e.key
      simp only [h.texts e he, NodeText.new, sharedPrefixCount_eq, advanceByChars_eq]
      generalize keyMatch (c :: rest) e.key = n at *
      have hshorter : ((c :: rest).drop n).length < (c :: rest).length := by
        rw [length_drop]
        omega
      split
      · next hlt =>
        have hupper : upper TreeNode.cut e n ∈ t.nodes.split TreeNode.cut e n :=
          (mem_split h.shaped he).mpr (.inl rfl)
        have hpath : (upper TreeNode.cut e n).path = e.parent ++ (c :: rest).take n := by
          rw [← PathNode.parent_append_key, parent_upper, key_upper, htake]
        have hlen : (upper TreeNode.cut e n).key.length = n := by
          rw [key_upper, length_take_of_le hlt.le]
        have htext : (upper TreeNode.cut e n).path <+: e.parent ++ c :: rest := by
          rw [hpath]
          exact (prefix_append_right_inj _).mpr (List.take_prefix _ _)
        have hgrow : Grows u (e.parent ++ c :: rest) t _ := h.grows_split he hpos hlt
        have hup := hgrow.carries _ _ hu
        have hsplit := h.split he hpos hlt
        have hparent : (upper TreeNode.cut e n).parent = e.parent := parent_upper
        have hsound := hsplit.claim hupper (hparent ▸ hup)
        have hclaim := hsplit.grows_claim (u := u) (n := n) hupper htext
        rw [hlen] at hsound
        refine ⟨hsound, hgrow.trans hclaim.1, .walking ?_ hshorter hclaim.2⟩
        rw [hpath, append_assoc, take_append_drop]
      · next hle =>
        have hpath : e.path = e.parent ++ (c :: rest).take n := by
          rw [htake, take_of_length_le (Nat.le_of_not_lt hle), e.parent_append_key]
        have htext : e.path <+: e.parent ++ c :: rest := by
          rw [hpath]
          exact (prefix_append_right_inj _).mpr (List.take_prefix _ _)
        have hclaim := h.grows_claim (u := u) (n := e.key.length) he htext
        refine ⟨h.claim he hu, hclaim.1, .walking ?_ hshorter hclaim.2⟩
        rw [hpath, append_assoc, take_append_drop]

/-- Who has a count is a tenant of the root, and the other way round. -/
def Registered (t : Tree) : Prop := ∀ u, u ∈ t.tenantCharCount ↔ u ∈ t.rootTenants

section Insert

variable {text : List Char} {pc : InsertPc}

/-- What an insertion of `text` by `u` knows of the tree at its program counter. -/
def InsertPc.Knows (t : Tree) (u : String) (text : List Char) : InsertPc → Prop
  | .atRoot rest => rest = text
  | .atCount rest => rest = text ∧ u ∈ t.rootTenants
  | .walking prev remaining =>
    prev ++ remaining = text ∧ u ∈ t.tenantsAt prev ∧ u ∈ t.tenantCharCount
  | .done => u ∈ t.tenantsAt text ∧ u ∈ t.tenantCharCount

theorem InsertPc.Knows.grows {w : String} {t' : Tree} {text' : List Char} (h : pc.Knows t u text)
    (hgrow : Grows w text' t t') : pc.Knows t' u text := by
  cases pc with
  | atRoot => exact h
  | atCount => exact ⟨h.1, hgrow.carries [] u h.2⟩
  | walking prev => exact ⟨h.1, hgrow.carries prev u h.2.1, hgrow.counts u h.2.2⟩
  | done => exact ⟨hgrow.carries text u h.1, hgrow.counts u h.2⟩

def InsertPc.left : InsertPc → Nat
  | .atRoot text => text.length + 3
  | .atCount text => text.length + 2
  | .walking _ remaining => remaining.length + 1
  | .done => 0

theorem InsertPc.left_eq_zero : pc.left = 0 ↔ pc = .done := by
  cases pc <;> simp [left]

theorem Sound.insertStep (h : t.Sound skip) (epoch : Nat) (hpc : pc.Knows t u text) :
    (insertStep u epoch t pc).1.Sound skip ∧ Grows u text t (insertStep u epoch t pc).1 ∧
      (insertStep u epoch t pc).2.Knows (insertStep u epoch t pc).1 u text ∧
      (insertStep u epoch t pc).2.left ≤ pc.left - 1 := by
  cases pc with
  | atRoot rest =>
    obtain rfl : rest = text := hpc
    simp only [insertStep]
    split
    · next hu => exact ⟨h, .refl u rest t, ⟨rfl, hu⟩, Nat.le_refl _⟩
    · have hedit : Grows u rest t (t.editTenants [] (·.insert u 0)) :=
        .editTenants h.shaped (.inl rfl) nil_prefix
      exact ⟨h.addRoot u 0, hedit, ⟨rfl, (AList.mem_insert _).mpr (.inl rfl)⟩, Nat.le_refl _⟩
  | atCount rest =>
    obtain ⟨rfl, hu⟩ := hpc
    simp only [insertStep]
    split
    · next hcount => exact ⟨h, .refl u rest t, ⟨rfl, hu, hcount⟩, Nat.le_refl _⟩
    · next hcount =>
      exact ⟨h.addCountZero hcount, .setCount u rest t 0, ⟨rfl, hu, (AList.mem_insert _).mpr (.inl rfl)⟩,
        Nat.le_refl _⟩
  | walking prev remaining =>
    obtain ⟨rfl, hu, hcount⟩ := hpc
    obtain ⟨hsound, hgrow, hwalked⟩ := h.insertWalk hu epoch remaining
    simp only [insertStep]
    refine ⟨hsound, hgrow, ?_⟩
    generalize t.insertWalk u epoch prev remaining = next at hsound hgrow hwalked ⊢
    obtain ⟨t', pc'⟩ := next
    cases hwalked with
    | done hdone => exact ⟨⟨hdone, hgrow.counts u hcount⟩, Nat.zero_le _⟩
    | walking happend hshorter hprev => exact ⟨⟨happend, hprev, hgrow.counts u hcount⟩, hshorter⟩
  | done => exact ⟨h, .refl u text t, hpc, Nat.le_refl _⟩

/-- An insertion gives the tenant its text and takes nothing from the others. -/
theorem Sound.insert (h : t.Sound skip) (text : List Char) (u : String) (epoch : Nat) :
    (t.insert text u epoch).Sound skip ∧ Grows u text t (t.insert text u epoch) ∧
      u ∈ (t.insert text u epoch).tenantsAt text ∧
      u ∈ (t.insert text u epoch).tenantCharCount := by
  let Inv (t' : Tree) (pc : InsertPc) : Prop :=
    t'.Sound skip ∧ Grows u text t t' ∧ pc.Knows t' u text
  have hstep : ∀ t' pc, Inv t' pc →
      Inv (Tree.insertStep u epoch t' pc).1 (Tree.insertStep u epoch t' pc).2 ∧
        (Tree.insertStep u epoch t' pc).2.left ≤ pc.left - 1 := by
    rintro t' pc ⟨hsound, hgrow, hpc⟩
    obtain ⟨hsound', hgrow', hpc', hleft⟩ := hsound.insertStep epoch hpc
    exact ⟨⟨hsound', hgrow.trans hgrow', hpc'⟩, hleft⟩
  have hinit : Inv t (.atRoot text) := ⟨h, .refl u text t, rfl⟩
  obtain ⟨⟨hsound, hgrow, hpc⟩, hleft⟩ :=
    runLoop_ends Inv (fun _ pc => pc.left) hstep hinit (Nat.le_refl _)
  refine ⟨hsound, hgrow, ?_⟩
  rw [InsertPc.left_eq_zero.mp hleft] at hpc
  exact hpc

end Insert

end Tree

end LLM42.Gateway
