import LLM42.Gateway.PrefixTreeMatch
import LLM42.Library.Interleaving

/-! # Concurrent calls on the prefix tree

Threads insert, evict and remove on one tree. A turn of the loop of `insert` holds the entry of the
child in the parent and is one step; an eviction and a removal go through the steps of
`PrefixTreeEvict`. Insertions do not hurt each other, since a node that is cut keeps its path; what
they rely on can be taken away by an eviction or a removal only. -/

namespace LLM42.Gateway

open Library Gateway.Tree List

/-- The tree, and the texts of the insertions that began after the last step of an eviction or a
removal. -/
structure SharedTree where
  tree : Tree
  recent : List (List Char)

inductive TreeThread
  | idle
  | inserting (text : List Char) (tenant : String) (epoch : Nat) (pc : InsertPc)
  | evicting (maxSize : Nat) (pick : List EvictionEntry → Nat) (pc : EvictPc)
  | removing (tenant : String) (pc : RemovePc)

inductive TreeAction
  | insert (text : List Char) (tenant : String) (epoch : Nat)
  | evictTenantBySize (maxSize : Nat) (pick : List EvictionEntry → Nat)
  | removeTenant (tenant : String)
  | step

inductive TreeMisuse
  | disabled
  /-- an insertion is at a node that is no longer in the tree -/
  | detached
  deriving DecidableEq

def Tree.reaches (t : Tree) : InsertPc → Bool
  | .walking prev _ => prev ∈ t.places
  | _ => true

def treeAct (m : SharedTree) : TreeThread → TreeAction → Except TreeMisuse (SharedTree × TreeThread)
  | .idle, .insert text tenant epoch =>
    .ok ({ m with recent := text :: m.recent }, .inserting text tenant epoch (.atRoot text))
  | .idle, .evictTenantBySize maxSize pick => .ok (m, .evicting maxSize pick .scan)
  | .idle, .removeTenant tenant => .ok (m, .removing tenant .scan)
  | .inserting _ _ _ .done, .step => .ok (m, .idle)
  | .inserting text tenant epoch pc, .step =>
    if m.tree.reaches pc then
      .ok ({ m with tree := (insertStep tenant epoch m.tree pc).1 },
        .inserting text tenant epoch (insertStep tenant epoch m.tree pc).2)
    else .error .detached
  | .evicting _ _ .done, .step => .ok (m, .idle)
  | .evicting maxSize pick pc, .step =>
    .ok (⟨(evictStep maxSize pick m.tree pc).1, []⟩,
      .evicting maxSize pick (evictStep maxSize pick m.tree pc).2)
  | .removing _ .done, .step => .ok (m, .idle)
  | .removing tenant pc, .step =>
    .ok (⟨(removeStep tenant m.tree pc).1, []⟩, .removing tenant (removeStep tenant m.tree pc).2)
  | _, _ => .error .disabled

def treeProgram : Program SharedTree TreeThread TreeAction Empty TreeMisuse where
  act := treeAct
  env _ b := nomatch b

def TreeThread.isIdle : TreeThread → Bool
  | .idle => true
  | _ => false

def TreeThread.cuts : TreeThread → Bool
  | .evicting .. | .removing .. => true
  | _ => false

def TreeAction.cuts : TreeAction → Bool
  | .evictTenantBySize .. | .removeTenant _ => true
  | _ => false

/-- Evictions and removals run alone: no other thread moves while one is under way, and one begins
only when no other call is under way. -/
def CutsAlone (w : Pool SharedTree TreeThread) : Move TreeAction Empty → Prop
  | .thread i a => ∀ x ∈ w.threads.zipIdx, x.2 ≠ i →
    x.1.cuts = false ∧ (a.cuts = true → x.1.isIdle = true)
  | .environment _ => True

instance (w : Pool SharedTree TreeThread) (mv : Move TreeAction Empty) :
    Decidable (CutsAlone w mv) := by
  unfold CutsAlone
  split <;> infer_instance

def TreeStart (w : Pool SharedTree TreeThread) : Prop :=
  w.shared = ⟨.new, []⟩ ∧ ∀ th ∈ w.threads, th = .idle

/-- The counts are right and the texts are found in full. -/
structure Settled (m : SharedTree) : Prop where
  counted : ∀ u, (m.tree.tenantCharCount.lookup u).getD 0 = m.tree.usedSize u
  found : ∀ text ∈ m.recent, ∀ epoch pick, (m.tree.prefixMatch text epoch pick).1.1 = text

variable {w : Pool SharedTree TreeThread} {th : TreeThread}

/-- What a thread knows while nobody evicts or removes. -/
def TreeThread.Knows (t : Tree) : TreeThread → Prop
  | .idle => True
  | .inserting text tenant _ pc => pc.Knows t tenant text
  | _ => False

/-- What is known of the tree while a thread evicts or removes. -/
def TreeThread.Cutting (t : Tree) : TreeThread → Prop
  | .evicting maxSize _ pc => ∃ t₀, Evicting maxSize t₀ t pc
  | .removing tenant pc => ∃ t₀, Removing tenant t₀ t pc
  | _ => False

theorem TreeThread.Knows.grows {t t' : Tree} {u : String} {text : List Char} (h : th.Knows t)
    (hgrow : Grows u text t t') : th.Knows t' := by
  cases th with
  | idle => trivial
  | inserting => exact InsertPc.Knows.grows h hgrow
  | evicting => exact h
  | removing => exact h

theorem TreeThread.Cutting.cuts {t : Tree} (h : th.Cutting t) : th.cuts = true := by
  cases th with
  | evicting | removing => rfl
  | idle | inserting => exact h.elim

/-- The text is retained, or someone is inserting it. -/
def TextPending (w : Pool SharedTree TreeThread) (text : List Char) : Prop :=
  (∃ u, u ∈ w.shared.tree.tenantsAt text) ∨
    ∃ th ∈ w.threads, ∃ tenant epoch pc, th = .inserting text tenant epoch pc

/-- Either nobody evicts or removes, or one thread does and the others are idle. -/
inductive TreeOrderly (w : Pool SharedTree TreeThread) : Prop
  | inserting : (w.shared.tree.Sound fun _ => False) →
      (∀ th ∈ w.threads, th.Knows w.shared.tree) → (∀ text ∈ w.shared.recent, TextPending w text) →
      TreeOrderly w
  | cutting {i : Nat} {th : TreeThread} : w.threads[i]? = some th → th.Cutting w.shared.tree →
      (∀ j th', j ≠ i → w.threads[j]? = some th' → th' = .idle) →
      (∀ text ∈ w.shared.recent, ∃ u, u ∈ w.shared.tree.tenantsAt text) → TreeOrderly w

/-! ## Steps -/

section Step

variable {m m' : SharedTree} {th th' : TreeThread} {a : TreeAction}

theorem treeAct_of_knows (h : treeAct m th a = .ok (m', th')) (hknows : th.Knows m.tree) :
    (∃ text u epoch, th = .idle ∧ m' = { m with recent := text :: m.recent } ∧
        th' = .inserting text u epoch (.atRoot text)) ∨
      (th = .idle ∧ a.cuts = true ∧ m' = m ∧
        ((∃ maxSize pick, th' = .evicting maxSize pick .scan) ∨ ∃ u, th' = .removing u .scan)) ∨
      (∃ text u epoch, th = .inserting text u epoch .done ∧ m' = m ∧ th' = .idle) ∨
      ∃ text u epoch pc, th = .inserting text u epoch pc ∧
        m' = { m with tree := (insertStep u epoch m.tree pc).1 } ∧
        th' = .inserting text u epoch (insertStep u epoch m.tree pc).2 := by
  cases th with
  | idle =>
    cases a with
    | insert text u epoch =>
      cases h
      exact .inl ⟨text, u, epoch, rfl, rfl, rfl⟩
    | evictTenantBySize maxSize pick =>
      cases h
      exact .inr (.inl ⟨rfl, rfl, rfl, .inl ⟨maxSize, pick, rfl⟩⟩)
    | removeTenant u =>
      cases h
      exact .inr (.inl ⟨rfl, rfl, rfl, .inr ⟨u, rfl⟩⟩)
    | step => cases h
  | inserting text u epoch pc =>
    cases a with
    | step =>
      by_cases hpc : pc = .done
      · subst hpc
        cases h
        exact .inr (.inr (.inl ⟨text, u, epoch, rfl, rfl, rfl⟩))
      · simp only [treeAct] at h
        split at h
        · cases h
          exact .inr (.inr (.inr ⟨text, u, epoch, pc, rfl, rfl, rfl⟩))
        · cases h
    | insert | evictTenantBySize | removeTenant => cases pc <;> cases h
  | evicting => exact hknows.elim
  | removing => exact hknows.elim

theorem treeAct_of_cutting (h : treeAct m th a = .ok (m', th')) (hcut : th.Cutting m.tree) :
    (m' = m ∧ th' = .idle ∧ m.tree.Sound fun _ => False) ∨
      (m'.recent = [] ∧ th'.Cutting m'.tree) := by
  cases th with
  | idle => exact hcut.elim
  | inserting => exact hcut.elim
  | evicting maxSize pick pc =>
    obtain ⟨t₀, hcut⟩ := hcut
    cases a with
    | step =>
      by_cases hpc : pc = .done
      · subst hpc
        cases h
        exact .inl ⟨rfl, rfl, hcut.of_done.1.sound⟩
      · simp only [treeAct] at h
        cases h
        exact .inr ⟨rfl, t₀, hcut.step⟩
    | insert | evictTenantBySize | removeTenant => cases pc <;> cases h
  | removing u pc =>
    obtain ⟨t₀, hcut⟩ := hcut
    cases a with
    | step =>
      by_cases hpc : pc = .done
      · subst hpc
        cases h
        exact .inl ⟨rfl, rfl, hcut.removed.sound⟩
      · simp only [treeAct] at h
        cases h
        exact .inr ⟨rfl, t₀, hcut.step⟩
    | insert | evictTenantBySize | removeTenant => cases pc <;> cases h

end Step

theorem CutsAlone.others {i : Nat} {a : TreeAction} (h : CutsAlone w (.thread i a)) {j : Nat}
    (hji : j ≠ i) (hj : w.threads[j]? = some th) :
    th.cuts = false ∧ (a.cuts = true → th = .idle) := by
  have := h (th, j) (mem_zipIdx_iff_getElem?.mpr hj) hji
  refine ⟨this.1, fun ha => ?_⟩
  cases th with
  | idle => rfl
  | _ => exact Bool.noConfusion (this.2 ha)

theorem TextPending.of_set {text : List Char} {i : Nat} {th th' : TreeThread} {m : SharedTree}
    (h : TextPending w text) (hi : w.threads[i]? = some th)
    (hcarries : ∀ u, u ∈ w.shared.tree.tenantsAt text → u ∈ m.tree.tenantsAt text)
    (hth : ∀ u epoch pc, th = .inserting text u epoch pc →
      (∃ v, v ∈ m.tree.tenantsAt text) ∨ ∃ u epoch pc, th' = .inserting text u epoch pc) :
    TextPending ⟨m, w.threads.set i th'⟩ text := by
  rcases h with ⟨u, hu⟩ | ⟨q, hq, u, epoch, pc, rfl⟩
  · exact .inl ⟨u, hcarries u hu⟩
  obtain ⟨j, hj⟩ := getElem?_of_mem hq
  by_cases hji : j = i
  · rw [hji, hi] at hj
    rcases hth u epoch pc (Option.some.inj hj) with hret | ⟨u', epoch', pc', rfl⟩
    · exact .inl hret
    · exact .inr ⟨_, mem_threads_set hi, u', epoch', pc', rfl⟩
  · rw [← getElem?_set_ne (Ne.symm hji)] at hj
    exact .inr ⟨_, mem_of_getElem? hj, u, epoch, pc, rfl⟩

/-- Evictions and removals that run alone keep the tree in order. -/
theorem TreeOrderly.step {mv : Move TreeAction Empty} {w' : Pool SharedTree TreeThread}
    (h : TreeOrderly w) (hmv : CutsAlone w mv) (hstep : treeProgram.step w mv = .ok w') :
    TreeOrderly w' := by
  cases mv with
  | environment b => exact nomatch b
  | thread i a =>
    obtain rfl | ⟨th, m, th', hi, hact, rfl⟩ := Program.step_thread hstep
    · exact h
    cases h with
    | inserting hsound hknows hpending =>
      have hmem := mem_of_getElem? hi
      have hothers : ∀ j q, j ≠ i → w.threads[j]? = some q → q.Knows w.shared.tree :=
        fun j q _ hj => hknows q (mem_of_getElem? hj)
      obtain ⟨text, u, epoch, rfl, rfl, rfl⟩ | ⟨rfl, ha, rfl, hth⟩ | ⟨text, u, epoch, rfl, rfl, rfl⟩ |
        ⟨text, u, epoch, pc, rfl, rfl, rfl⟩ := treeAct_of_knows hact (hknows th hmem)
      · refine .inserting hsound (forall_threads_set rfl hothers) fun text' htext' => ?_
        rcases mem_cons.mp htext' with rfl | htext'
        · exact .inr ⟨_, mem_threads_set hi, u, epoch, _, rfl⟩
        · exact (hpending text' htext').of_set hi (fun _ => id) nofun
      · have hidle : ∀ j q, j ≠ i → w.threads[j]? = some q → q = .idle :=
          fun j q hji hj => (hmv.others hji hj).2 ha
        have hcut : th'.Cutting w.shared.tree := by
          rcases hth with ⟨maxSize, pick, rfl⟩ | ⟨u, rfl⟩
          · exact ⟨_, .scan (.refl hsound maxSize)⟩
          · exact ⟨_, .scan (.refl hsound u)⟩
        refine .cutting (getElem?_set_self (List.getElem?_eq_some_iff.mp hi).1) hcut ?_ ?_
        · intro j q hji hj
          rw [getElem?_set_ne (Ne.symm hji)] at hj
          exact hidle j q hji hj
        · intro text htext
          rcases hpending text htext with hret | ⟨q, hq, u, epoch, pc, rfl⟩
          · exact hret
          · have := forall_threads (Q := (· = .idle)) hi rfl hidle _ hq
            cases this
      · refine .inserting hsound (forall_threads_set trivial hothers) fun text' htext' => ?_
        refine (hpending text' htext').of_set hi (fun _ => id) ?_
        rintro _ _ _ ⟨rfl, rfl, rfl, rfl⟩
        exact .inl ⟨u, (hknows _ hmem).1⟩
      · obtain ⟨hsound', hgrow, hpc, -⟩ := hsound.insertStep epoch (hknows _ hmem)
        have hothers' : ∀ j q, j ≠ i → w.threads[j]? = some q →
            q.Knows (insertStep u epoch w.shared.tree pc).1 :=
          fun j q hji hj => (hothers j q hji hj).grows hgrow
        refine .inserting hsound' (forall_threads_set hpc hothers') fun text' htext' => ?_
        refine (hpending text' htext').of_set hi (fun v hv => hgrow.carries _ v hv) ?_
        rintro _ _ _ ⟨rfl, rfl, rfl, rfl⟩
        exact .inr ⟨u, epoch, _, rfl⟩
    | @cutting k q hk hcut hidle hfound =>
      -- the thread that moves is the one that evicts or removes
      have hik : i = k := by
        by_contra hne
        have := (hmv.others (Ne.symm hne) hk).1
        rw [hcut.cuts] at this
        exact Bool.noConfusion this
      subst hik
      obtain rfl : th = q := Option.some.inj (hi.symm.trans hk)
      have hothers : ∀ j q, j ≠ i → (w.threads.set i th')[j]? = some q → q = .idle := by
        intro j q hji hj
        rw [getElem?_set_ne (Ne.symm hji)] at hj
        exact hidle j q hji hj
      rcases treeAct_of_cutting hact hcut with ⟨rfl, rfl, hsound⟩ | ⟨hrecent, hcut'⟩
      · refine .inserting hsound ?_ fun text htext => .inl (hfound text htext)
        refine forall_threads_set trivial fun j q hji hj => ?_
        rw [hidle j q hji hj]
        trivial
      · refine .cutting (getElem?_set_self (List.getElem?_eq_some_iff.mp hi).1) hcut' hothers ?_
        intro text htext
        rw [hrecent] at htext
        exact (not_mem_nil htext).elim

theorem TreeOrderly.settled (h : TreeOrderly w) (hidle : ∀ th ∈ w.threads, th.isIdle = true) :
    Settled w.shared := by
  cases h with
  | inserting hsound _ hpending =>
    refine ⟨fun u => hsound.counted u id, fun text htext epoch pick => ?_⟩
    rcases hpending text htext with ⟨u, hu⟩ | ⟨th, hth, u, epoch, pc, rfl⟩
    · exact hsound.prefixMatch_eq hu epoch pick
    · exact Bool.noConfusion (hidle _ hth)
  | @cutting _ th hi hcut =>
    have := hidle th (mem_of_getElem? hi)
    cases th with
    | idle => exact hcut.elim
    | _ => exact Bool.noConfusion this

/-- In every run in which evictions and removals run alone, the tree is consistent whenever no call
is under way. -/
theorem settled_when_idle {w : Pool SharedTree TreeThread}
    (h : Reachable treeProgram.step TreeStart CutsAlone w)
    (hidle : ∀ th ∈ w.threads, th.isIdle = true) : Settled w.shared := by
  have horderly : TreeOrderly w := by
    refine h.invariant (fun w hw => ?_) fun _ _ _ hw hmv hstep => hw.step hmv hstep
    obtain ⟨hshared, hthreads⟩ := hw
    refine .inserting (hshared ▸ consistent_new.sound) (fun th hth => ?_) ?_
    · rw [hthreads th hth]
      trivial
    · rw [hshared]
      exact nofun
  exact horderly.settled hidle

def twoThreads : Pool SharedTree TreeThread := ⟨⟨.new, []⟩, [.idle, .idle]⟩

theorem treeStart_twoThreads : TreeStart twoThreads := ⟨rfl, by simp [twoThreads]⟩

/-- Two insertions that meet in one node, and an eviction after them. -/
theorem settled_when_idle_twoThreads : ∃ w, Reachable treeProgram.step TreeStart CutsAlone w ∧
      (∀ th ∈ w.threads, th.isIdle = true) ∧
      (w.shared.recent = ["ac".toList] ∧ w.shared.tree.usedSize "w1" = 2) ∧ Settled w.shared :=
  exists_reachable_imp (p := fun _ => _ ∧ _) treeStart_twoThreads
    ([.thread 0 (.insert "ab".toList "w1" 0), .thread 1 (.insert "ac".toList "w2" 1)] ++
      (replicate 3 [.thread 0 .step, .thread 1 .step]).flatten ++
      [.thread 0 .step, .thread 1 .step, .thread 1 .step,
        .thread 1 (.evictTenantBySize 1 fun _ => 0)] ++ replicate 15 (.thread 1 .step) ++
      [.thread 0 (.insert "ac".toList "w1" 2)] ++ replicate 5 (.thread 0 .step))
    (by decide +kernel)
    fun _ hreach ⟨hidle, hrecent⟩ => ⟨hidle, hrecent, settled_when_idle hreach hidle⟩

/-- The last step of an insertion puts a tenant back on a node from which a removal has taken it:
the node carries a tenant that has no count. -/
theorem unsettled_after_removal : ∃ w, Reachable treeProgram.step TreeStart (fun _ _ => True) w ∧
      (∀ th ∈ w.threads, th.isIdle = true) ∧
      w.shared.tree.tenantCharCount.lookup "w1" = none ∧ w.shared.tree.usedSize "w1" = 1 ∧
      ¬ Settled w.shared :=
  exists_reachable_imp (p := fun _ => _ ∧ _ ∧ _) treeStart_twoThreads
    ([.thread 0 (.insert "a".toList "w1" 0)] ++ replicate 4 (.thread 0 .step) ++
      [.thread 0 (.insert "a".toList "w2" 1)] ++ replicate 5 (.thread 0 .step) ++
      [.thread 0 (.insert "a".toList "w1" 2)] ++ replicate 3 (.thread 0 .step) ++
      [.thread 1 (.removeTenant "w1")] ++ replicate 9 (.thread 1 .step) ++
      replicate 2 (.thread 0 .step)) (by decide +kernel)
    fun _ _ ⟨hidle, hcount, hused⟩ => ⟨hidle, hcount, hused, fun h => by
      have := h.counted "w1"
      rw [hcount, hused] at this
      exact absurd this (by decide)⟩

end LLM42.Gateway
