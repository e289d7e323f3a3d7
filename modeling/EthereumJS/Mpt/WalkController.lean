import EthereumJS.Mpt.Contract
import Mathlib.Algebra.BigOperators.Group.Multiset.Basic
import Mathlib.Tactic.Abel

/-! # Walks by tasks

`WalkController` looks up the nodes of a trie in a pool of tasks, and the lookups come to their ends
in any order. Whatever the order is, a walk of the whole trie comes to every node once, and its
promise is resolved when it has come to all of them and not before.
-/

namespace EthereumJS

open RLP Patricia Patricia.Tree

section Executor

variable {τ : Type}

/-- The tasks of the pool are those whose callback has not been called. -/
structure PrioritizedTaskExecutor (τ : Type) where
  maxPoolSize : Nat
  currentPoolSize : Nat
  queue : List (Nat × τ)
  running : List τ

namespace PrioritizedTaskExecutor

def new (maxPoolSize : Nat) : PrioritizedTaskExecutor τ := ⟨maxPoolSize, 0, [], []⟩

variable (self : PrioritizedTaskExecutor τ)

def executeOrQueue (priority : Nat) (fn : τ) : PrioritizedTaskExecutor τ :=
  if self.currentPoolSize < self.maxPoolSize then
    { self with currentPoolSize := self.currentPoolSize + 1, running := self.running ++ [fn] }
  else { self with queue := self.queue ++ [(priority, fn)] }

/-- The callback that a task is given; the sort is stable. -/
def taskFinished : PrioritizedTaskExecutor τ :=
  let freed := { self with currentPoolSize := self.currentPoolSize - 1 }
  match self.queue.mergeSort fun a b => decide (b.1 ≤ a.1) with
  | [] => freed
  | item :: rest => { freed with queue := rest }.executeOrQueue item.1 item.2

def finished : Bool := self.currentPoolSize == 0

/-- The tasks that have not come to their ends. -/
def tasks : List τ := self.running ++ self.queue.map Prod.snd

/-- A task waits only where the pool is full. -/
structure WellRun (executor : PrioritizedTaskExecutor τ) : Prop where
  pos : 0 < executor.maxPoolSize
  size : executor.currentPoolSize = executor.running.length
  le : executor.currentPoolSize ≤ executor.maxPoolSize
  full : executor.queue ≠ [] → executor.currentPoolSize = executor.maxPoolSize

variable {self} {priority : Nat} {fn : τ}

theorem wellRun_new {maxPoolSize : Nat} (h : 0 < maxPoolSize) :
    (new maxPoolSize : PrioritizedTaskExecutor τ).WellRun :=
  ⟨h, rfl, Nat.zero_le _, fun hne => absurd rfl hne⟩

theorem WellRun.executeOrQueue (h : self.WellRun) : (self.executeOrQueue priority fn).WellRun := by
  unfold PrioritizedTaskExecutor.executeOrQueue
  split
  · rename_i hlt
    refine ⟨h.pos, ?_, hlt, fun hne => absurd (h.full hne) hlt.ne⟩
    simp [h.size]
  · rename_i hge
    exact ⟨h.pos, h.size, h.le, fun _ => le_antisymm h.le (Nat.le_of_not_lt hge)⟩

theorem tasks_executeOrQueue :
    ((self.executeOrQueue priority fn).tasks).Perm (fn :: self.tasks) := by
  unfold executeOrQueue tasks
  split
  · rw [List.append_assoc]
    exact List.perm_middle
  · rw [List.map_append, ← List.append_assoc]
    exact List.perm_append_singleton _ _

/-- With the end of a task the pool goes on with the task that waits first. -/
theorem WellRun.taskFinished (h : self.WellRun) {i : Nat} (hi : self.running[i]? = some fn) :
    ({ self with running := self.running.eraseIdx i }.taskFinished).WellRun ∧
      self.tasks.Perm
        (fn :: ({ self with running := self.running.eraseIdx i }.taskFinished).tasks) := by
  obtain ⟨hlt, hget⟩ := List.getElem?_eq_some_iff.mp hi
  have hlen : (self.running.eraseIdx i).length = self.currentPoolSize - 1 := by
    rw [List.length_eraseIdx_of_lt hlt, h.size]
  have hrunning : self.running.Perm (fn :: self.running.eraseIdx i) := by
    rw [← hget]
    exact (List.getElem_cons_eraseIdx_perm hlt).symm
  have hqueue := List.mergeSort_perm self.queue fun a b => decide (b.1 ≤ a.1)
  have hpos := h.pos
  have hsize := h.size
  have hle := h.le
  unfold PrioritizedTaskExecutor.taskFinished
  dsimp only
  split
  · rename_i hnil
    rw [hnil] at hqueue
    have hempty := hqueue.symm.eq_nil
    refine ⟨⟨hpos, hlen.symm, by dsimp only; omega, fun hne => absurd hempty hne⟩, ?_⟩
    exact hrunning.append_right _
  · rename_i item rest hcons
    rw [hcons] at hqueue
    have hne : self.queue ≠ [] := fun hnil => by
      rw [hnil] at hqueue
      exact absurd hqueue.eq_nil (List.cons_ne_nil _ _)
    have hfull := h.full hne
    unfold PrioritizedTaskExecutor.executeOrQueue
    rw [if_pos (by dsimp only; omega)]
    refine ⟨⟨hpos, ?_, by dsimp only; omega, fun _ => by dsimp only; omega⟩, ?_⟩
    · dsimp only
      rw [List.length_append, hlen]
      rfl
    · unfold tasks
      dsimp only
      refine (hrunning.append (hqueue.symm.map Prod.snd)).trans ?_
      rw [List.map_cons, List.append_assoc]
      exact List.Perm.refl _

end PrioritizedTaskExecutor

end Executor

section Walk

variable {τ ε : Type}

/-- `found` are the tasks that `onNode` has been called for. -/
structure WalkController (τ ε : Type) where
  taskExecutor : PrioritizedTaskExecutor τ
  found : List τ
  promise : Option (Except ε Unit)

namespace WalkController

section Steps

variable (expand : τ → Except ε (List (Nat × τ))) (self : WalkController τ ε)

/-- Only the first call settles a promise. -/
def settle (result : Except ε Unit) : WalkController τ ε :=
  { self with promise := self.promise.or (some result) }

def pushAll (taskExecutor : PrioritizedTaskExecutor τ) (children : List (Nat × τ)) :
    PrioritizedTaskExecutor τ :=
  children.foldl (fun executor child => executor.executeOrQueue child.1 child.2) taskExecutor

/-- `_processNode`, with the tasks that `onNode` pushes. -/
def processNode (task : τ) (children : List (Nat × τ)) : WalkController τ ε :=
  let taskExecutor := pushAll self.taskExecutor children
  let processed := { self with taskExecutor := taskExecutor, found := self.found ++ [task] }
  if taskExecutor.finished then processed.settle (.ok ()) else processed

/-- `_startWalk`: the root is looked up outside the pool. -/
def startWalk (poolSize : Nat) (root : τ) : WalkController τ ε :=
  let started : WalkController τ ε := ⟨.new poolSize, [], none⟩
  match expand root with
  | .error error => started.settle (.error error)
  | .ok children => started.processNode root children

/-- A lookup of the pool comes to its end. One that fails does not give its place back. -/
def lookupEnds (i : Nat) : Option (WalkController τ ε) :=
  self.taskExecutor.running[i]?.map fun task =>
    let taskExecutor :=
      { self.taskExecutor with running := self.taskExecutor.running.eraseIdx i }
    match expand task with
    | .error error => { self with taskExecutor := taskExecutor }.settle (.error error)
    | .ok children =>
      { self with taskExecutor := taskExecutor.taskFinished }.processNode task children

/-- The lookups come to their ends in any order. -/
def run : WalkController τ ε → List Nat → Option (WalkController τ ε)
  | self, [] => some self
  | self, i :: is => (self.lookupEnds expand i).bind fun walk => walk.run is

/-- A task and all that it leads to, as many levels down. -/
def visits : Nat → τ → Multiset τ
  | 0, _ => 0
  | n + 1, task =>
    match expand task with
    | .error _ => 0
    | .ok children => task ::ₘ (children.map fun child => visits n child.2).sum

/-- A task leads to finitely many levels, without an error. -/
def Ends : Nat → τ → Prop
  | 0, _ => False
  | n + 1, task => ∃ children, expand task = .ok children ∧ ∀ child ∈ children, Ends n child.2

end Steps

variable {expand : τ → Except ε (List (Nat × τ))} {self : WalkController τ ε} {n : Nat} {task : τ}

theorem Ends.succ (h : Ends expand n task) :
    Ends expand (n + 1) task ∧ visits expand (n + 1) task = visits expand n task := by
  induction n generalizing task with
  | zero => exact h.elim
  | succ n ih =>
    obtain ⟨children, hexpand, hends⟩ := h
    refine ⟨⟨children, hexpand, fun child hchild => (ih (hends child hchild)).1⟩, ?_⟩
    have hbelow : (children.map fun child => visits expand (n + 1) child.2) =
        children.map fun child => visits expand n child.2 :=
      List.map_congr_left fun child hchild => (ih (hends child hchild)).2
    rw [visits, hexpand]
    dsimp only
    rw [hbelow, visits, hexpand]

theorem Ends.le (h : Ends expand n task) {m : Nat} (hm : n ≤ m) :
    Ends expand m task ∧ visits expand m task = visits expand n task := by
  induction m, hm using Nat.le_induction with
  | base => exact ⟨h, rfl⟩
  | succ m _ ih => exact ⟨ih.1.succ.1, ih.1.succ.2.trans ih.2⟩

theorem Ends.expands (h : Ends expand n task) : ∃ children, expand task = .ok children ∧
    (∀ child ∈ children, Ends expand n child.2) ∧
      visits expand n task = task ::ₘ (children.map fun child => visits expand n child.2).sum := by
  cases n with
  | zero => exact h.elim
  | succ n =>
    have hsucc := h
    obtain ⟨children, hexpand, hends⟩ := h
    refine ⟨children, hexpand, fun child hchild => (hends child hchild).succ.1, ?_⟩
    rw [← hsucc.succ.2, visits, hexpand]

theorem pushAll_ok {taskExecutor : PrioritizedTaskExecutor τ} (h : taskExecutor.WellRun)
    (children : List (Nat × τ)) : (pushAll taskExecutor children).WellRun ∧
      ((pushAll taskExecutor children).tasks).Perm
        (children.map Prod.snd ++ taskExecutor.tasks) := by
  induction children generalizing taskExecutor with
  | nil => exact ⟨h, List.Perm.refl _⟩
  | cons child children ih =>
    have hqueued : (taskExecutor.executeOrQueue child.1 child.2).WellRun := h.executeOrQueue
    obtain ⟨hwell, hperm⟩ := ih hqueued
    refine ⟨hwell, hperm.trans ?_⟩
    refine (PrioritizedTaskExecutor.tasks_executeOrQueue.append_left _).trans ?_
    exact List.perm_middle

/-- What has been found and what the tasks lead to is all that the root leads to, and the promise
is settled when no task is left. -/
structure Walking (expand : τ → Except ε (List (Nat × τ))) (n : Nat) (root : τ)
    (walk : WalkController τ ε) : Prop where
  wellRun : walk.taskExecutor.WellRun
  ends : ∀ task ∈ walk.taskExecutor.tasks, Ends expand n task
  total : (walk.found : Multiset τ) + (walk.taskExecutor.tasks.map (visits expand n)).sum =
    visits expand n root
  promise : walk.promise = if walk.taskExecutor.running = [] then some (.ok ()) else none

variable {root : τ} {children : List (Nat × τ)} {walk : WalkController τ ε}

theorem walking_processNode (hwell : self.taskExecutor.WellRun) (hpromise : self.promise = none)
    (hends : ∀ task ∈ self.taskExecutor.tasks, Ends expand n task)
    (hchildren : ∀ child ∈ children, Ends expand n child.2)
    (htotal : (self.found : Multiset τ) +
      (task ::ₘ (children.map fun child => visits expand n child.2).sum) +
      (self.taskExecutor.tasks.map (visits expand n)).sum = visits expand n root) :
    Walking expand n root (self.processNode task children) := by
  obtain ⟨hwell', hperm⟩ := pushAll_ok hwell children
  have hends' : ∀ task ∈ (pushAll self.taskExecutor children).tasks, Ends expand n task := by
    intro other hother
    obtain hother | hother := List.mem_append.mp (hperm.subset hother)
    · obtain ⟨child, hchild, rfl⟩ := List.mem_map.mp hother
      exact hchildren child hchild
    · exact hends other hother
  have hsum : ((pushAll self.taskExecutor children).tasks.map (visits expand n)).sum =
      (children.map fun child => visits expand n child.2).sum +
        (self.taskExecutor.tasks.map (visits expand n)).sum := by
    rw [(hperm.map _).sum_eq, List.map_append, List.sum_append, List.map_map]
    rfl
  have htotal' : ((self.found ++ [task] : List τ) : Multiset τ) +
      ((pushAll self.taskExecutor children).tasks.map (visits expand n)).sum =
        visits expand n root := by
    rw [← htotal, hsum, ← Multiset.coe_add, Multiset.coe_singleton, ← Multiset.singleton_add]
    abel
  unfold processNode
  dsimp only
  split
  · rename_i hfinished
    have hempty : (pushAll self.taskExecutor children).running = [] :=
      List.length_eq_zero_iff.mp (hwell'.size ▸ eq_of_beq hfinished)
    refine ⟨hwell', hends', htotal', ?_⟩
    rw [settle, hpromise, if_pos hempty]
    rfl
  · rename_i hfinished
    refine ⟨hwell', hends', htotal', ?_⟩
    rw [hpromise, if_neg]
    intro hempty
    refine hfinished (beq_iff_eq.mpr ?_)
    rw [hwell'.size, hempty]
    rfl

theorem walking_startWalk {poolSize : Nat} (hpool : 0 < poolSize) (h : Ends expand n root) :
    Walking expand n root (startWalk expand poolSize root) ∧
      (startWalk expand poolSize root).found = [root] := by
  obtain ⟨children, hexpand, hends, hvisits⟩ := h.expands
  unfold startWalk
  rw [hexpand]
  dsimp only
  refine ⟨?_, ?_⟩
  · refine walking_processNode (PrioritizedTaskExecutor.wellRun_new hpool) rfl
      (fun _ htask => absurd htask List.not_mem_nil) hends ?_
    rw [hvisits]
    exact (add_zero _).trans (zero_add _)
  · unfold processNode
    dsimp only
    split <;> rfl

/-- One lookup. -/
theorem Walking.lookupEnds (h : Walking expand n root self) {i : Nat}
    (hstep : self.lookupEnds expand i = some walk) :
    Walking expand n root walk ∧ walk.found.length = self.found.length + 1 := by
  unfold WalkController.lookupEnds at hstep
  obtain ⟨task, htask, rfl⟩ := Option.map_eq_some_iff.mp hstep
  obtain ⟨hwell, hperm⟩ := h.wellRun.taskFinished htask
  have hne : self.taskExecutor.running ≠ [] := fun hnil => by
    rw [hnil] at htask
    cases htask
  have hpromise : self.promise = none := h.promise.trans (if_neg hne)
  obtain ⟨children, hexpand, hends, hvisits⟩ :=
    (h.ends task (hperm.symm.subset List.mem_cons_self)).expands
  rw [hexpand]
  dsimp only
  refine ⟨?_, ?_⟩
  · refine walking_processNode hwell hpromise (fun other hother => ?_) hends ?_
    · exact h.ends other (hperm.symm.subset (List.mem_cons_of_mem _ hother))
    · rw [← hvisits, ← h.total, (hperm.map _).sum_eq, List.map_cons, List.sum_cons, add_assoc]
  · unfold processNode
    dsimp only
    split <;> exact List.length_append

theorem Walking.run (h : Walking expand n root self) {ends : List Nat}
    (hrun : self.run expand ends = some walk) :
    Walking expand n root walk ∧ walk.found.length = self.found.length + ends.length := by
  induction ends generalizing self with
  | nil =>
    obtain rfl := Option.some.inj hrun
    exact ⟨h, rfl⟩
  | cons i ends ih =>
    obtain ⟨next, hstep, hrest⟩ := Option.bind_eq_some_iff.mp hrun
    obtain ⟨hnext, hlength⟩ := h.lookupEnds hstep
    obtain ⟨hwalk, hfound⟩ := ih hnext hrest
    refine ⟨hwalk, ?_⟩
    rw [hfound, hlength, List.length_cons]
    omega

/-- Nothing waits where no task is under way. -/
theorem Walking.all_found (h : Walking expand n root self)
    (hempty : self.taskExecutor.running = []) :
    (self.found : Multiset τ) = visits expand n root := by
  have hqueue : self.taskExecutor.queue = [] := by
    by_contra hne
    have hfull := h.wellRun.full hne
    have hpos := h.wellRun.pos
    rw [h.wellRun.size, hempty, List.length_nil] at hfull
    omega
  have htotal := h.total
  rw [PrioritizedTaskExecutor.tasks, hempty, hqueue] at htotal
  exact (add_zero _).symm.trans htotal

end WalkController

end Walk

section Trie

variable (trie : MerklePatriciaTrie)

/-- The tasks of `allChildren`, with the lengths of their keys for priorities. -/
def allChildren (node : MPTNode) (currentKeyNibbles : Nibbles) :
    List (Nat × (Item × Nibbles)) :=
  let children : List (Item × Nibbles) :=
    match node with
    | .leaf _ _ => []
    | .extension key value => [(value, currentKeyNibbles ++ key)]
    | .branch _ _ =>
      node.getChildren.map fun child => (child.2, currentKeyNibbles ++ [child.1])
  children.map fun child => (child.2.length, child)

/-- The lookup of a node, for an `onNode` that walks on to all children. -/
def lookupChildren (task : Item × Nibbles) : Except MPTError (List (Nat × (Item × Nibbles))) :=
  (trie.lookupNode task.1).map fun node => allChildren node task.2

/-- `walkTrie` from the root. -/
def walkTrie (poolSize : Nat) : WalkController (Item × Nibbles) MPTError :=
  WalkController.startWalk (lookupChildren trie) poolSize (.bytes trie.root, [])

/-- The references to the nodes below a node, with their keys. -/
def refsBelow (H : HashKeysFunction) : MPTree → Nibbles → Multiset (Item × Nibbles)
  | .nil, _ => 0
  | .leaf _ _, _ => 0
  | .ext p c, key => (refTree H c, key ++ p) ::ₘ refsBelow H c (key ++ p)
  | .branch c _, key => ((childSlots c).map fun a =>
      (refTree H (c a), key ++ [a]) ::ₘ refsBelow H (c a) (key ++ [a])).sum

variable {trie} {E : Set Bytes} {t : MPTree}

open WalkController

theorem ends_of_lookup {n : Nat} {ref : Item} (key : Nibbles) {node : MPTNode}
    (hlookup : trie.lookupNode ref = .ok node)
    (hends : ∀ child ∈ allChildren node key, Ends (lookupChildren trie) n child.2) :
    Ends (lookupChildren trie) (n + 1) (ref, key) ∧
      visits (lookupChildren trie) (n + 1) (ref, key) = (ref, key) ::ₘ
        ((allChildren node key).map fun child => visits (lookupChildren trie) n child.2).sum := by
  have hexpand : lookupChildren trie (ref, key) = .ok (allChildren node key) := by
    rw [lookupChildren, hlookup]
    rfl
  refine ⟨⟨_, hexpand, hends⟩, ?_⟩
  rw [visits, hexpand]

/-- The lookups below a stored node come to an end with the nodes of its tree. -/
theorem ends_stored (hE : CollisionFree trie.hashing E) {s : MPTree} (hs : s ≠ nil) (hwf : s.WF)
    (hencoded : EncodedIn trie.hashing E s) (hstored : s.All (Resident trie.hashing trie.db))
    {ref : Item} (hlookup : trie.lookupNode ref = .ok (nodeOf trie.hashing s)) (key : Nibbles) :
    ∃ n, Ends (lookupChildren trie) n (ref, key) ∧
      visits (lookupChildren trie) n (ref, key) =
        (ref, key) ::ₘ refsBelow trie.hashing s key := by
  induction s generalizing ref key with
  | nil => exact absurd rfl hs
  | leaf p v =>
    exact ⟨1, ends_of_lookup key hlookup fun child hchild => absurd hchild List.not_mem_nil⟩
  | ext p c ih =>
    have hc : c ≠ nil := hwf.2.1.ne_nil
    have hchild := trie.lookupNode_resident hE hc (hencoded.2.self hc) (hstored.2.self hc)
    obtain ⟨n, hends, hvisits⟩ := ih hc hwf.2.2 hencoded.2 hstored.2 hchild (key ++ p)
    obtain ⟨hends', hvisits'⟩ := ends_of_lookup key (n := n) hlookup fun child hmem => by
      obtain rfl := List.mem_singleton.mp hmem
      exact hends
    refine ⟨n + 1, hends', hvisits'.trans ?_⟩
    have hsum : ((allChildren (nodeOf trie.hashing (ext p c)) key).map fun child =>
        visits (lookupChildren trie) n child.2).sum =
          visits (lookupChildren trie) n (refTree trie.hashing c, key ++ p) := add_zero _
    rw [hsum, hvisits, refsBelow]
  | branch c w ih =>
    have hall : ∀ a, ∃ n, c a ≠ nil →
        Ends (lookupChildren trie) n (refTree trie.hashing (c a), key ++ [a]) ∧
          visits (lookupChildren trie) n (refTree trie.hashing (c a), key ++ [a]) =
            (refTree trie.hashing (c a), key ++ [a]) ::ₘ
              refsBelow trie.hashing (c a) (key ++ [a]) := by
      intro a
      rcases eq_or_ne (c a) nil with hnil | hne
      · exact ⟨0, fun hne => absurd hnil hne⟩
      · have hchild := trie.lookupNode_resident hE hne ((hencoded.2 a).self hne)
          ((hstored.2 a).self hne)
        obtain ⟨n, hends⟩ := ih a hne (hwf a) (hencoded.2 a) (hstored.2 a) hchild (key ++ [a])
        exact ⟨n, fun _ => hends⟩
    choose f hf using hall
    have hchildren : allChildren (nodeOf trie.hashing (branch c w)) key =
        (childSlots c).map fun a =>
          ((key ++ [a]).length, (refTree trie.hashing (c a), key ++ [a])) := by
      change (((nodeOf trie.hashing (branch c w)).getChildren.map fun child =>
        (child.2, key ++ [child.1])).map fun child => (child.2.length, child)) = _
      rw [trie.getChildren_nodeOf, List.map_map, List.map_map]
      rfl
    have hbelow : ∀ a ∈ childSlots c,
        Ends (lookupChildren trie) (Finset.univ.sup f) (refTree trie.hashing (c a), key ++ [a]) ∧
          visits (lookupChildren trie) (Finset.univ.sup f)
            (refTree trie.hashing (c a), key ++ [a]) = (refTree trie.hashing (c a), key ++ [a]) ::ₘ
              refsBelow trie.hashing (c a) (key ++ [a]) := by
      intro a ha
      obtain ⟨hends, hvisits⟩ := hf a (mem_childSlots.mp ha)
      obtain ⟨hends', hvisits'⟩ := hends.le (Finset.le_sup (Finset.mem_univ a))
      exact ⟨hends', hvisits'.trans hvisits⟩
    obtain ⟨hends', hvisits'⟩ := ends_of_lookup key (n := Finset.univ.sup f) hlookup
      fun child hmem => by
        rw [hchildren] at hmem
        obtain ⟨a, ha, rfl⟩ := List.mem_map.mp hmem
        exact (hbelow a ha).1
    refine ⟨Finset.univ.sup f + 1, hends', hvisits'.trans ?_⟩
    rw [hchildren, List.map_map, refsBelow]
    exact congrArg _ (congrArg _ (List.map_congr_left fun a ha => (hbelow a ha).2))

/-- A task is one of those that it leads to. -/
theorem visits_ne_zero {n : Nat} {task : Item × Nibbles} (h : Ends (lookupChildren trie) n task) :
    visits (lookupChildren trie) n task ≠ 0 := by
  obtain ⟨children, -, -, hvisits⟩ := h.expands
  rw [hvisits]
  exact Multiset.cons_ne_zero

end Trie

/-- Whatever the order is that the lookups come to their ends in, a walk finds every node of the
trie once, and its promise is resolved as soon as it has found them all and not before. -/
theorem walkTrie_finds_all {E : Set Bytes} {trie : MerklePatriciaTrie} {t : MPTree}
    (hE : CollisionFree trie.hashing E) (h : Represents E trie t) (ht : t ≠ nil) {poolSize : Nat}
    (hpool : 0 < poolSize) {ends : List Nat} {walk : WalkController (Item × Nibbles) MPTError}
    (hrun : (walkTrie trie poolSize).run (lookupChildren trie) ends = some walk) :
    (walk.found : Multiset (Item × Nibbles)) ≤
        (.bytes trie.root, []) ::ₘ refsBelow trie.hashing t [] ∧
      walk.found.length = ends.length + 1 ∧
      walk.promise = (if walk.taskExecutor.running = [] then some (.ok ()) else none) ∧
      (walk.promise = some (.ok ()) ↔ (walk.found : Multiset (Item × Nibbles)) =
        (.bytes trie.root, []) ::ₘ refsBelow trie.hashing t []) := by
  have hroot := trie.lookupNode_hash hE ht (h.top ht).1 (h.top ht).2
  rw [← h.root_eq] at hroot
  obtain ⟨n, hends, hvisits⟩ := ends_stored hE ht h.wf h.encoded h.stored hroot []
  obtain ⟨hstart, hfound⟩ := WalkController.walking_startWalk hpool hends
  obtain ⟨hwalk, hlength⟩ := hstart.run hrun
  have htotal := hwalk.total.trans hvisits
  refine ⟨?_, ?_, hwalk.promise, ?_⟩
  · rw [← htotal]
    exact Multiset.le_add_right _ _
  · rw [hlength, hfound, List.length_singleton, Nat.add_comm]
  · rw [hwalk.promise]
    split
    · rename_i hempty
      exact iff_of_true rfl ((hwalk.all_found hempty).trans hvisits)
    · rename_i hne
      refine iff_of_false (fun h => by cases h) fun hall => ?_
      -- a task that is under way leads to itself at least
      obtain ⟨task, running, hcons⟩ := List.exists_cons_of_ne_nil hne
      have htasks : walk.taskExecutor.tasks =
          task :: (running ++ walk.taskExecutor.queue.map Prod.snd) := by
        rw [PrioritizedTaskExecutor.tasks, hcons, List.cons_append]
      have htask : task ∈ walk.taskExecutor.tasks := htasks ▸ List.mem_cons_self
      have hzero : (walk.taskExecutor.tasks.map
          (WalkController.visits (lookupChildren trie) n)).sum = 0 := by
        rw [hall] at htotal
        exact left_eq_add.mp htotal.symm
      rw [htasks, List.map_cons, List.sum_cons] at hzero
      exact visits_ne_zero (hwalk.ends task htask) (add_eq_zero.mp hzero).1

/-- The trie of some calls, with one lookup at a time. -/
theorem walkTrie_finds_all_kept : ∃ trie walk,
    (createMPT (plainOpts polynomialHash)).run keptCalls = .ok trie ∧
      (walkTrie trie 1).run (lookupChildren trie) [0, 0, 0] = some walk ∧
      walk.promise = some (.ok ()) ∧ walk.found.length = 4 := by
  have hE := @collisionFree_of_list polynomialHash
    (RLP_EMPTY_STRING :: (createMPT (plainOpts polynomialHash)).encodings keptCalls)
    (by decide +kernel)
  obtain ⟨trie, hrun, hopts, hrep⟩ := (represents_createMPT _ (plainOpts polynomialHash)).run hE
    List.mem_cons_self rfl fun e he => List.mem_cons_of_mem _ he
  have hne : treeAfter (createMPT (plainOpts polynomialHash)).pathOf nil keptCalls ≠ nil :=
    isNil_eq_false.mp (by decide +kernel)
  have hwalks : ((createMPT (plainOpts polynomialHash)).run keptCalls).toOption.any (fun trie =>
      ((walkTrie trie 1).run (lookupChildren trie) [0, 0, 0]).any fun walk =>
        walk.taskExecutor.running.isEmpty) = true := by decide +kernel
  rw [hrun, Except.toOption, Option.any_some] at hwalks
  obtain ⟨walk, hwalk, hempty⟩ := (Option.any_eq_true _ _).mp hwalks
  have hE' : CollisionFree trie.hashing
      { e | e ∈ RLP_EMPTY_STRING ::
        (createMPT (plainOpts polynomialHash)).encodings keptCalls } := by
    rw [MerklePatriciaTrie.hashing, hopts]
    exact hE
  obtain ⟨-, hlength, hpromise, -⟩ := walkTrie_finds_all hE' hrep hne Nat.one_pos hwalk
  rw [if_pos (List.isEmpty_iff.mp hempty)] at hpromise
  exact ⟨trie, walk, hrun, hwalk, hpromise, hlength⟩

end EthereumJS
