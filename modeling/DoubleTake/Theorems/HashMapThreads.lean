import DoubleTake.HashMapThreads
import DoubleTake.Theorems.HashMap

/-! The hash map under any interleaving of its threads: who holds the lock of a bucket, what a search without the lock can meet, and
    that every history of calls and returns is linearizable. The invariant gives each bucket the list of the entries that its count
    has taken in; an insertion takes effect when it stores the count, a search when it loads it. -/

namespace DoubleTake

open Transition CircularList Linearizable

namespace SharedMap

variable {κ ν : Type} {m m' : HashMap κ ν} {lists lists' : Nat → List Nat} {i j a n t u : Nat} {node : HashNode} {as bs : List Nat}

/-! ### What a thread does to a bucket -/

/-- What the holder of a lock has done: the new entry is behind the last one, and the head points back to it. -/
structure Role where
  bucket : Nat
  linked : Bool
  backed : Bool
  deriving DecidableEq, Repr

def linked : LinkStep → Bool
  | .nextPrev | .loadCount | .storeCount _ => true
  | _ => false

def backed : LinkStep → Bool
  | .loadCount | .storeCount _ => true
  | _ => false

def searchRole (m : HashMap κ ν) : Search κ ν → Option Role
  | .find _ _ => none
  | .insertIfAbsent entry => some ⟨m.hashIndex entry.key entry.keylen, false, false⟩

/-- The part of a thread between `Lock` and `Unlock`. -/
def role (m : HashMap κ ν) : MapPc κ ν → Option Role
  | .first q | .count q _ | .loop q _ _ | .next q _ _ => searchRole m q
  | .create entry _ => some ⟨m.hashIndex entry.key entry.keylen, false, false⟩
  | .link bucket _ _ step => some ⟨bucket, linked step, backed step⟩
  | .unlock bucket _ => some ⟨bucket, false, false⟩
  | _ => none

/-- The thread holds the lock of the bucket. -/
def Holds (s : SharedMap κ ν) (t i : Nat) : Prop := ∃ ρ, role s.map (s.pc t) = some ρ ∧ ρ.bucket = i

structure Locked (s : SharedMap κ ν) : Prop where
  excl : ∀ t u i, s.Holds t i → s.Holds u i → t = u
  lock : ∀ i, s.lock i = 1 ↔ ∃ t, s.Holds t i

theorem Locked.setPc {s : SharedMap κ ν} {pc : MapPc κ ν} (h : s.Locked) (hrole : role s.map pc = role s.map (s.pc t)) :
    (s.setPc t pc).Locked := by
  have heq : ∀ u i, (s.setPc t pc).Holds u i ↔ s.Holds u i := by
    intro u i
    have hu : role (s.setPc t pc).map ((s.setPc t pc).pc u) = role s.map (s.pc u) := by
      show role s.map (Function.update s.pc t pc u) = _
      by_cases hut : u = t
      · rw [hut, Function.update_self, hrole]
      · rw [Function.update_of_ne hut]
    rw [Holds, Holds, hu]
  constructor
  · intro u v i hu hv
    exact h.excl u v i ((heq u i).mp hu) ((heq v i).mp hv)
  · intro i
    rw [show (s.setPc t pc).lock i = s.lock i from rfl, h.lock]
    exact exists_congr fun u => (heq u i).symm

/-! ### The lists of the buckets -/

/-- The pointers lead from the node over the list. -/
def Path (m : HashMap κ ν) : HashNode → List Nat → Prop
  | _, [] => True
  | node, a :: as => m.links.next node = .entry a ∧ Path m (.entry a) as

/-- The node behind which the next entry comes. -/
def lastNode (lists : Nat → List Nat) (i : Nat) : HashNode := ((lists i).getLast?.map .entry).getD (.bucket i)

theorem bucket_ne_entry (i a : Nat) : HashNode.bucket i ≠ .entry a := by
  intro heq
  cases heq

theorem lastNode_nil (h : lists i = []) : lastNode lists i = .bucket i := by
  rw [lastNode, h]
  rfl

theorem lastNode_append (h : lists i = as ++ [a]) : lastNode lists i = .entry a := by
  rw [lastNode, h, List.getLast?_append_of_ne_nil _ (List.cons_ne_nil a [])]
  rfl

theorem lastNode_cases : lists i = [] ∧ lastNode lists i = .bucket i ∨ ∃ a ∈ lists i, lastNode lists i = .entry a := by
  rcases List.eq_nil_or_concat (lists i) with hnil | ⟨as, a, heq⟩
  · exact .inl ⟨hnil, lastNode_nil hnil⟩
  · rw [List.concat_eq_append] at heq
    refine .inr ⟨a, ?_, lastNode_append heq⟩
    rw [heq]
    exact List.mem_append_right _ (List.mem_singleton_self a)

/-- All nodes of the path but the last keep their pointer. -/
theorem Path.frame (h : Path m node as) (hnext : ∀ u ∈ (node :: as.map .entry).dropLast, m'.links.next u = m.links.next u) :
    Path m' node as := by
  induction as generalizing node with
  | nil => trivial
  | cons a as ih =>
    obtain ⟨hfirst, hrest⟩ := h
    have hmem : ∀ u ∈ node :: (HashNode.entry a :: as.map .entry).dropLast, m'.links.next u = m.links.next u := hnext
    refine ⟨?_, ih hrest fun u hu => hmem u (List.mem_cons_of_mem _ hu)⟩
    rw [hmem node List.mem_cons_self]
    exact hfirst

theorem Path.append_last (h : Path m node as) (hlast : m.links.next ((as.getLast?.map .entry).getD node) = .entry a) :
    Path m node (as ++ [a]) := by
  induction as generalizing node with
  | nil => exact ⟨hlast, trivial⟩
  | cons b as ih =>
    refine ⟨h.1, ih h.2 ?_⟩
    rw [List.getLast?_cons] at hlast
    cases hl : as.getLast? with
    | none =>
      rw [hl] at hlast
      exact hlast
    | some c =>
      rw [hl] at hlast
      exact hlast

theorem Path.next {b : Nat} (h : Path m node (as ++ a :: b :: bs)) : m.links.next (.entry a) = .entry b := by
  induction as generalizing node with
  | nil => exact h.2.1
  | cons c as ih => exact ih h.2

/-- The lists of the buckets, as far as the counts have taken them in. -/
structure Counted (m : HashMap κ ν) (lists : Nat → List Nat) : Prop where
  pos : 0 < m.buckets
  count : ∀ i, i < m.buckets → m.count i = (lists i).length
  path : ∀ i, i < m.buckets → Path m (.bucket i) (lists i)
  placed : ∀ i, i < m.buckets → ∀ a ∈ lists i, ∃ entry, m.entries a = some entry ∧ m.hashIndex entry.key entry.keylen = i
  nodup : ∀ i, i < m.buckets → (lists i).Nodup
  room : ∀ i, i < m.buckets → ∀ a ∈ lists i, a < HashMap.INTERNAL_HEAP_SIZE / HashMap.ENTRY_SIZE

theorem Counted.index (h : Counted m lists) (key : κ) (keylen : Nat) : m.hashIndex key keylen < m.buckets := Nat.mod_lt _ h.pos

/-- The count of a bucket fits in an `int`. -/
theorem Counted.length_lt (h : Counted m lists) (hi : i < m.buckets) : (lists i).length < 2 ^ 31 := by
  have hsub : lists i ⊆ List.range (HashMap.INTERNAL_HEAP_SIZE / HashMap.ENTRY_SIZE) := fun a ha => List.mem_range.mpr (h.room i hi a ha)
  have hle := ((h.nodup i hi).subperm hsub).length_le
  rw [List.length_range] at hle
  have hroom : HashMap.INTERNAL_HEAP_SIZE / HashMap.ENTRY_SIZE = 107374182 := by decide
  omega

theorem Counted.toInt_count (h : Counted m lists) (hi : i < m.buckets) : (HashMap.toInt (m.count i)).toNat = (lists i).length := by
  rw [h.count i hi]
  exact HashMap.toInt_eq (h.length_lt hi)

theorem entry_ne_lastNode (h : a ∉ lists i) : HashNode.entry a ≠ lastNode lists i := by
  intro heq
  rcases lastNode_cases with ⟨-, hl⟩ | ⟨b, hb, hl⟩
  · rw [hl] at heq
    cases heq
  · rw [hl] at heq
    cases heq
    exact h hb

theorem lastNode_notMem_dropLast (h : (lists i).Nodup) : lastNode lists i ∉ (HashNode.bucket i :: (lists i).map .entry).dropLast := by
  rcases List.eq_nil_or_concat (lists i) with hnil | ⟨as, b, heq⟩
  · rw [hnil]
    exact List.not_mem_nil
  · rw [List.concat_eq_append] at heq
    rw [lastNode_append heq, heq, List.map_append, ← List.cons_append, List.map_singleton, List.dropLast_concat]
    intro hmem
    rcases List.mem_cons.mp hmem with hmem | hmem
    · cases hmem
    · obtain ⟨c, hc, hcb⟩ := List.mem_map.mp hmem
      cases hcb
      rw [heq] at h
      exact (List.nodup_append.mp h).2.2 _ hc _ (List.mem_singleton_self _) rfl

theorem lastNode_mem : lastNode lists i ∈ HashNode.bucket i :: (lists i).map .entry := by
  rcases lastNode_cases with ⟨-, hl⟩ | ⟨a, ha, hl⟩
  · rw [hl]
    exact List.mem_cons_self
  · rw [hl]
    exact List.mem_cons_of_mem _ (List.mem_map_of_mem ha)

/-- The last node of a list is on no other one. -/
theorem Counted.lastNode_notMem (h : Counted m lists) (hi : i < m.buckets) (hj : j < m.buckets) (hij : i ≠ j) :
    lastNode lists i ∉ HashNode.bucket j :: (lists j).map .entry := by
  intro hmem
  rcases lastNode_cases with ⟨-, hl⟩ | ⟨a, ha, hl⟩
  · rw [hl] at hmem
    rcases List.mem_cons.mp hmem with heq | hmem
    · exact hij (HashNode.bucket.inj heq)
    · obtain ⟨b, -, heq⟩ := List.mem_map.mp hmem
      cases heq
  · rw [hl] at hmem
    rcases List.mem_cons.mp hmem with heq | hmem
    · cases heq
    · obtain ⟨b, hb, heq⟩ := List.mem_map.mp hmem
      cases heq
      obtain ⟨e, he, hie⟩ := h.placed i hi _ ha
      obtain ⟨e', he', hje⟩ := h.placed j hj _ hb
      rw [he] at he'
      cases he'
      exact hij (hie.symm.trans hje)

/-! ### Steps under a lock -/

/-- The memory before and after a step of the thread that holds the lock of bucket `j`. -/
structure Agrees (m m' : HashMap κ ν) (lists lists' : Nat → List Nat) (j : Nat) : Prop where
  index : m'.hashIndex = m.hashIndex
  buckets : m'.buckets = m.buckets
  entries : ∀ a entry, m.entries a = some entry → m'.entries a = some entry
  grow : ∀ i, ∃ new, lists' i = lists i ++ new
  first : ∀ i, m.links.next (.bucket i) = .bucket i ∨ m'.links.next (.bucket i) = m.links.next (.bucket i)
  same : ∀ i, i < m.buckets → i ≠ j → lists' i = lists i ∧ m'.count i = m.count i ∧
    m'.links.prev (.bucket i) = m.links.prev (.bucket i) ∧ m'.links.next (.bucket i) = m.links.next (.bucket i) ∧
    m'.links.next (lastNode lists i) = m.links.next (lastNode lists i)

/-- The list of a search's bucket grows only when the search holds no lock. -/
theorem Agrees.grow_of_role {q : Search κ ν} (h : Agrees m m' lists lists' j) (hi : m.hashIndex q.key q.keylen < m.buckets)
    (hne : ∀ ρ, searchRole m q = some ρ → ρ.bucket ≠ j) : ∃ new,
    lists' (m.hashIndex q.key q.keylen) = lists (m.hashIndex q.key q.keylen) ++ new ∧
      ((∃ key keylen, q = .find key keylen) ∨ new = []) := by
  cases q with
  | find key keylen =>
    obtain ⟨new, hnew⟩ := h.grow (m.hashIndex key keylen)
    exact ⟨new, hnew, .inl ⟨key, keylen, rfl⟩⟩
  | insertIfAbsent entry =>
    obtain ⟨heq, -⟩ := h.same _ hi (hne _ rfl)
    exact ⟨[], by rw [heq, List.append_nil], .inr rfl⟩

/-- A pointer to the next node is written. -/
theorem agrees_next {v w : HashNode} (hout : ∀ i, i < m.buckets → i ≠ j → v ≠ .bucket i ∧ v ≠ lastNode lists i)
    (hfirst : ∀ i, v = .bucket i → m.links.next v = v) :
    Agrees m { m with links := { m.links with next := Function.update m.links.next v w } } lists lists j where
  index := rfl
  buckets := rfl
  entries _ _ h := h
  grow _ := ⟨[], (List.append_nil _).symm⟩
  first i := by
    by_cases hv : v = .bucket i
    · exact .inl (hv ▸ hfirst i hv)
    · exact .inr (Function.update_of_ne (fun heq => hv heq.symm) _ _)
  same i hi hij := by
    obtain ⟨h₁, h₂⟩ := hout i hi hij
    exact ⟨rfl, rfl, rfl, Function.update_of_ne (fun heq => h₁ heq.symm) _ _, Function.update_of_ne (fun heq => h₂ heq.symm) _ _⟩

theorem agrees_prev {v w : HashNode} (hout : ∀ i, i ≠ j → v ≠ .bucket i) :
    Agrees m { m with links := { m.links with prev := Function.update m.links.prev v w } } lists lists j where
  index := rfl
  buckets := rfl
  entries _ _ h := h
  grow _ := ⟨[], (List.append_nil _).symm⟩
  first _ := .inr rfl
  same i _ hij := ⟨rfl, rfl, Function.update_of_ne (fun heq => hout i hij heq.symm) _ _, rfl, rfl⟩

theorem Counted.setNext {v w : HashNode} (h : Counted m lists)
    (hout : ∀ i, i < m.buckets → v ∉ (HashNode.bucket i :: (lists i).map .entry).dropLast) :
    Counted { m with links := { m.links with next := Function.update m.links.next v w } } lists where
  pos := h.pos
  count := h.count
  path i hi := (h.path i hi).frame fun u hu => Function.update_of_ne (fun heq : u = v => hout i hi (heq ▸ hu)) _ _
  placed := h.placed
  nodup := h.nodup
  room := h.room

/-! ### Where a thread stands -/

variable [DecidableEq κ]

abbrev MapPhase (κ ν : Type) : Type := Phase (MapCall κ ν) (MapReturn ν)

/-- What a search over the entries shows. One that finds nothing to be inserted has not taken effect. -/
def Outcome (m : HashMap κ ν) (as : List Nat) : Search κ ν → MapPhase κ ν → Prop
  | .find key keylen, p => p = .done (.value ((as.find? (m.has key keylen)).bind fun a => (m.entries a).map (·.value)))
  | .insertIfAbsent entry, p =>
    p = if (as.find? (m.has entry.key entry.keylen)).isSome then .done (.present true)
      else .called (.search (.insertIfAbsent entry))

/-- `c` entries are left of a list: for a search under the lock, all behind those that it has passed. -/
def Covers (m : HashMap κ ν) (as bs : List Nat) (c : Nat) : Search κ ν → Prop
  | .find _ _ => c ≤ bs.length
  | .insertIfAbsent entry => c = bs.length ∧ ∀ a ∈ as, m.has entry.key entry.keylen a = false

/-- The search is at a node with `c` entries to go. -/
def Walk (m : HashMap κ ν) (lists : Nat → List Nat) (q : Search κ ν) (c : Nat) (node : HashNode) (p : MapPhase κ ν) : Prop :=
  ∃ as bs, lists (m.hashIndex q.key q.keylen) = as ++ bs ∧ Covers m as bs c q ∧ (c ≠ 0 → bs.head?.map .entry = some node) ∧
    Outcome m (bs.take c) q p

/-- The search is at the head of the list, with entries to go. -/
def Strayed (q : Search κ ν) (c : Nat) (node : HashNode) : Prop :=
  (∃ key keylen, q = .find key keylen) ∧ c ≠ 0 ∧ ∃ i, node = .bucket i

/-- The call puts the entry at the end of the list, and returns `r`. -/
def Appends (m : HashMap κ ν) (lists : Nat → List Nat) (entry : HashMapEntry κ ν) (r : MapReturn ν) : MapCall κ ν → Prop
  | .insert e => e = entry ∧ r = .inserted
  | .search (.find _ _) => False
  | .search (.insertIfAbsent e) =>
    e = entry ∧ r = .present false ∧ ∀ a ∈ lists (m.hashIndex e.key e.keylen), m.has e.key e.keylen a = false

/-- The new entry of a bucket. -/
structure New (m : HashMap κ ν) (lists : Nat → List Nat) (i a : Nat) (r : MapReturn ν) (p : MapPhase κ ν) : Prop where
  entry : ∃ entry c, m.entries a = some entry ∧ m.hashIndex entry.key entry.keylen = i ∧ p = .called c ∧ Appends m lists entry r c
  fresh : a ∉ lists i
  room : a < HashMap.INTERNAL_HEAP_SIZE / HashMap.ENTRY_SIZE

def LinkOk (m : HashMap κ ν) (lists : Nat → List Nat) (i a : Nat) : LinkStep → Prop
  | .tail => True
  | .nodeNext prev | .nodePrev prev | .prevNext prev => prev = lastNode lists i
  | .nextPrev => m.links.next (lastNode lists i) = .entry a
  | .loadCount => m.links.next (lastNode lists i) = .entry a ∧ m.links.prev (.bucket i) = .entry a
  | .storeCount n =>
    (m.links.next (lastNode lists i) = .entry a ∧ m.links.prev (.bucket i) = .entry a) ∧ n = (m.count i + 1) % 2 ^ 64

/-- What the atomic object has for a thread, by where the thread is. -/
def PcOk (m : HashMap κ ν) (lists : Nat → List Nat) : MapPc κ ν → MapPhase κ ν → Prop
  | .idle, p => p = .idle
  | .lock bucket c, p => p = .called c ∧ ∃ ρ, role m (locked c) = some ρ ∧ ρ = ⟨bucket, false, false⟩
  | .first q, p => p = .called (.search q)
  | .count q node, p =>
    p = .called (.search q) ∧
      (node = m.links.next (.bucket (m.hashIndex q.key q.keylen)) ∨
        (∃ key keylen, q = .find key keylen) ∧ node = .bucket (m.hashIndex q.key q.keylen))
  | .loop q c node, p => Strayed q c node ∨ Walk m lists q c node p
  | .next q c a, p =>
    ∃ as bs, lists (m.hashIndex q.key q.keylen) = as ++ a :: bs ∧ Covers m (as ++ [a]) bs c q ∧ Outcome m (bs.take c) q p
  | .value a, p => ∃ entry, m.entries a = some entry ∧ p = .done (.value (some entry.value))
  | .create entry r, p => ∃ c, p = .called c ∧ Appends m lists entry r c
  | .link i a r step, p => New m lists i a r p ∧ LinkOk m lists i a step
  | .unlock _ r, p => p = .done r
  | .ret r, p => p = .done r
  | .wild, _ => True

/-! ### What the others see of a step -/

theorem Agrees.has (h : Agrees m m' lists lists' j) (hc : Counted m lists) (hi : i < m.buckets) (ha : a ∈ lists i) (key : κ)
    (keylen : Nat) : m'.has key keylen a = m.has key keylen a := by
  obtain ⟨entry, hentry, -⟩ := hc.placed i hi a ha
  rw [HashMap.has, HashMap.has, hentry, h.entries a entry hentry]

theorem Agrees.find? (h : Agrees m m' lists lists' j) (hc : Counted m lists) (hi : i < m.buckets) (hsub : ∀ a ∈ as, a ∈ lists i)
    (key : κ) (keylen : Nat) : as.find? (m'.has key keylen) = as.find? (m.has key keylen) := by
  induction as with
  | nil => rfl
  | cons a as ih =>
    rw [List.find?_cons, List.find?_cons, h.has hc hi (hsub a List.mem_cons_self), ih fun b hb => hsub b (List.mem_cons_of_mem _ hb)]

theorem Agrees.outcome {q : Search κ ν} {p : MapPhase κ ν} (h : Agrees m m' lists lists' j) (hc : Counted m lists)
    (hi : i < m.buckets) (hsub : ∀ a ∈ as, a ∈ lists i) (ho : Outcome m as q p) : Outcome m' as q p := by
  cases q with
  | find key keylen =>
    show p = _
    rw [show p = _ from ho, h.find? hc hi hsub]
    cases hfind : as.find? (m.has key keylen) with
    | none => rfl
    | some a =>
      obtain ⟨entry, hentry, -⟩ := hc.placed i hi a (hsub a (List.mem_of_find?_eq_some hfind))
      rw [Option.bind_some, Option.bind_some, hentry, h.entries a entry hentry]
  | insertIfAbsent entry =>
    show p = _
    rw [show p = _ from ho, h.find? hc hi hsub]

/-- A search keeps the entries that it has to go over. -/
theorem Agrees.covers {q : Search κ ν} {c : Nat} {new : List Nat} (h : Agrees m m' lists lists' j) (hc : Counted m lists)
    (hi : i < m.buckets) (heq : lists i = as ++ bs) (hnew : (∃ key keylen, q = .find key keylen) ∨ new = [])
    (hcov : Covers m as bs c q) : Covers m' as (bs ++ new) c q := by
  cases q with
  | find key keylen =>
    have hle : c ≤ bs.length := hcov
    show c ≤ (bs ++ new).length
    rw [List.length_append]
    omega
  | insertIfAbsent entry =>
    obtain ⟨hlen, habsent⟩ := hcov
    rcases hnew with ⟨key, keylen, hq⟩ | rfl
    · cases hq
    · rw [List.append_nil]
      refine ⟨hlen, fun a ha => ?_⟩
      rw [h.has hc hi (heq ▸ List.mem_append_left _ ha)]
      exact habsent a ha

theorem Covers.le {q : Search κ ν} {c : Nat} (h : Covers m as bs c q) : c ≤ bs.length := by
  cases q with
  | find key keylen => exact h
  | insertIfAbsent entry => exact h.1.le

/-- What the call of the thread itself appends is the same, as long as its list is. -/
theorem Agrees.appends_self {entry : HashMapEntry κ ν} {r : MapReturn ν} {c : MapCall κ ν} (h : Agrees m m' lists lists j)
    (hc : Counted m lists) (happ : Appends m lists entry r c) : Appends m' lists entry r c := by
  cases c with
  | insert e => exact happ
  | search q =>
    cases q with
    | find key keylen => exact happ
    | insertIfAbsent e =>
      obtain ⟨rfl, hr, habsent⟩ := happ
      refine ⟨rfl, hr, fun a ha => ?_⟩
      rw [h.index] at ha
      rw [h.has hc (hc.index e.key e.keylen) ha]
      exact habsent a ha

theorem Agrees.appends {entry : HashMapEntry κ ν} {r : MapReturn ν} {c : MapCall κ ν} (h : Agrees m m' lists lists' j)
    (hc : Counted m lists) (hne : m.hashIndex entry.key entry.keylen ≠ j) (happ : Appends m lists entry r c) :
    Appends m' lists' entry r c := by
  cases c with
  | insert e => exact happ
  | search q =>
    cases q with
    | find key keylen => exact happ
    | insertIfAbsent e =>
      obtain ⟨rfl, hr, habsent⟩ := happ
      refine ⟨rfl, hr, fun a ha => ?_⟩
      have hi := hc.index e.key e.keylen
      rw [h.index, (h.same _ hi hne).1] at ha
      rw [h.has hc hi ha]
      exact habsent a ha

/-- A thread that is not at bucket `j` stands where it stood. -/
theorem Agrees.pcOk {pc : MapPc κ ν} {p : MapPhase κ ν} (h : Agrees m m' lists lists' j) (hc : Counted m lists)
    (hne : ∀ ρ, role m pc = some ρ → ρ.bucket ≠ j) (hok : PcOk m lists pc p) : PcOk m' lists' pc p := by
  have hidx : ∀ q : Search κ ν, m.hashIndex q.key q.keylen < m.buckets := fun q => hc.index q.key q.keylen
  cases pc with
  | idle => exact hok
  | lock bucket c =>
    obtain ⟨hp, ρ, hrole, heq⟩ := hok
    refine ⟨hp, ρ, ?_, heq⟩
    rw [← hrole]
    cases c with
    | insert entry => exact congrArg (fun f => some (⟨f entry.key entry.keylen, false, false⟩ : Role)) h.index
    | search q =>
      cases q with
      | find key keylen => rfl
      | insertIfAbsent entry => exact congrArg (fun f => some (⟨f entry.key entry.keylen, false, false⟩ : Role)) h.index
  | first q => exact hok
  | count q node =>
    obtain ⟨hp, hnode⟩ := hok
    refine ⟨hp, ?_⟩
    rw [h.index]
    rcases hnode with hnode | hnode
    · cases q with
      | find key keylen =>
        rcases h.first (m.hashIndex key keylen) with hself | heq
        · exact .inr ⟨⟨key, keylen, rfl⟩, hnode.trans hself⟩
        · exact .inl (hnode.trans heq.symm)
      | insertIfAbsent entry =>
        obtain ⟨-, -, -, heq, -⟩ := h.same _ (hidx (.insertIfAbsent entry)) (hne _ rfl)
        exact .inl (hnode.trans heq.symm)
    · exact .inr hnode
  | loop q c node =>
    rcases hok with hstray | ⟨as, bs, hlist, hcov, hhead, hout⟩
    · exact .inl hstray
    · obtain ⟨new, hgrow, hnew⟩ := h.grow_of_role (hidx q) hne
      have hle := hcov.le
      refine .inr ⟨as, bs ++ new, ?_, h.covers hc (hidx q) hlist hnew hcov, fun hpos => ?_, ?_⟩
      · rw [h.index, hgrow, hlist, List.append_assoc]
      · have hb := hhead hpos
        cases bs with
        | nil => exact absurd hle (by simpa using hpos)
        | cons b bs => exact hb
      · rw [List.take_append_of_le_length hle]
        refine h.outcome hc (hidx q) (fun a ha => ?_) hout
        rw [hlist]
        exact List.mem_append_right _ (List.mem_of_mem_take ha)
  | next q c a =>
    obtain ⟨as, bs, hlist, hcov, hout⟩ := hok
    obtain ⟨new, hgrow, hnew⟩ := h.grow_of_role (hidx q) hne
    have hlist' : lists (m.hashIndex q.key q.keylen) = (as ++ [a]) ++ bs := by rw [hlist, List.append_assoc, List.singleton_append]
    refine ⟨as, bs ++ new, ?_, h.covers hc (hidx q) hlist' hnew hcov, ?_⟩
    · rw [h.index, hgrow, hlist, List.append_assoc, List.cons_append]
    · rw [List.take_append_of_le_length hcov.le]
      refine h.outcome hc (hidx q) (fun b hb => ?_) hout
      rw [hlist]
      exact List.mem_append_right _ (List.mem_cons_of_mem _ (List.mem_of_mem_take hb))
  | value a =>
    obtain ⟨entry, hentry, hp⟩ := hok
    exact ⟨entry, h.entries a entry hentry, hp⟩
  | create entry r =>
    obtain ⟨c, hp, happ⟩ := hok
    exact ⟨c, hp, h.appends hc (hne _ rfl) happ⟩
  | link i a r step =>
    obtain ⟨⟨⟨entry, c, hentry, hi, hp, happ⟩, hfresh, hroom⟩, hlink⟩ := hok
    have hlt : i < m.buckets := hi ▸ hc.index entry.key entry.keylen
    have hij : i ≠ j := hne _ rfl
    obtain ⟨hlists, hcount, hprev, -, hnext⟩ := h.same i hlt hij
    have hlast : lastNode lists' i = lastNode lists i := by rw [lastNode, lastNode, hlists]
    refine ⟨⟨⟨entry, c, h.entries a entry hentry, ?_, hp, ?_⟩, ?_, hroom⟩, ?_⟩
    · rw [h.index]
      exact hi
    · exact h.appends hc (hi ▸ hij) happ
    · rw [hlists]
      exact hfresh
    · cases step with
      | tail => trivial
      | nodeNext prev => exact hlink.trans hlast.symm
      | nodePrev prev => exact hlink.trans hlast.symm
      | prevNext prev => exact hlink.trans hlast.symm
      | nextPrev =>
        show m'.links.next (lastNode lists' i) = _
        rw [hlast, hnext]
        exact hlink
      | loadCount =>
        show m'.links.next (lastNode lists' i) = _ ∧ m'.links.prev _ = _
        rw [hlast, hnext, hprev]
        exact hlink
      | storeCount n =>
        show (m'.links.next (lastNode lists' i) = _ ∧ m'.links.prev _ = _) ∧ n = (m'.count i + 1) % _
        rw [hlast, hnext, hprev, hcount]
        exact hlink
  | unlock bucket r => exact hok
  | ret r => exact hok
  | wild => trivial

/-! ### The atomic map -/

/-- Where the pointers of an empty list and the head of a list lead, as long as no holder of the lock has changed them. -/
structure Ends (s : SharedMap κ ν) (lists : Nat → List Nat) : Prop where
  empty : ∀ i, i < s.map.buckets → lists i = [] →
    (∀ t ρ, role s.map (s.pc t) = some ρ → ρ.bucket = i → ρ.linked = false) → s.map.links.next (.bucket i) = .bucket i
  tail : ∀ i, i < s.map.buckets → (∀ t ρ, role s.map (s.pc t) = some ρ → ρ.bucket = i → ρ.backed = false) →
    s.map.links.prev (.bucket i) = lastNode lists i

abbrev AtomicMap (κ ν : Type) : Type := Atomic (List (HashMapEntry κ ν)) (MapCall κ ν) (MapReturn ν)

/-- The entries of the atomic map, bucket by bucket. -/
def Stands (m : HashMap κ ν) (lists : Nat → List Nat) (entries : List (HashMapEntry κ ν)) : Prop :=
  ∀ i, i < m.buckets →
    (lists i).map m.entries = (entries.filter fun entry => m.hashIndex entry.key entry.keylen = i).map some

/-- The shared map and the atomic one. -/
structure Rel (s : SharedMap κ ν) (lists : Nat → List Nat) (x : AtomicMap κ ν) : Prop where
  counted : Counted s.map lists
  locked : s.Locked
  ends : Ends s lists
  stands : Stands s.map lists x.state
  pcs : ∀ t, PcOk s.map lists (s.pc t) (x.phase t)

theorem find?_of_map {es : List (HashMapEntry κ ν)} {key : κ} {keylen : Nat} (h : as.map m.entries = es.map some) :
    ((as.find? (m.has key keylen)).bind fun a => (m.entries a).map (·.value)) = lookup es key keylen := by
  induction as generalizing es with
  | nil =>
    cases es with
    | nil => rfl
    | cons e es => cases h
  | cons a as ih =>
    cases es with
    | nil => cases h
    | cons e es =>
      obtain ⟨hentry, hrest⟩ := List.cons_eq_cons.mp h
      have hhas : m.has key keylen a = decide (e.keylen = keylen ∧ e.key = key) := by rw [HashMap.has, hentry, Option.any_some]
      rw [lookup, List.find?_cons, List.find?_cons, hhas]
      cases hmatch : decide (e.keylen = keylen ∧ e.key = key) with
      | true => rw [Option.bind_some, hentry]
      | false => exact ih hrest

/-- A key is looked up in the list of its bucket. -/
theorem Stands.lookup {entries : List (HashMapEntry κ ν)} (h : Stands m lists entries) (hc : Counted m lists) (key : κ)
    (keylen : Nat) : (((lists (m.hashIndex key keylen)).find? (m.has key keylen)).bind fun a => (m.entries a).map (·.value)) =
      lookup entries key keylen := by
  rw [find?_of_map (h _ (hc.index key keylen)), SharedMap.lookup, SharedMap.lookup, List.find?_filter]
  congr 2
  funext entry
  by_cases hmatch : entry.keylen = keylen ∧ entry.key = key
  · obtain ⟨rfl, rfl⟩ := hmatch
    simp
  · simp [hmatch]

theorem isSome_lookup {entries : List (HashMapEntry κ ν)} (h : Stands m lists entries) (hc : Counted m lists) (key : κ)
    (keylen : Nat) : ((lists (m.hashIndex key keylen)).find? (m.has key keylen)).isSome = (lookup entries key keylen).isSome := by
  rw [← h.lookup hc]
  cases hfind : (lists (m.hashIndex key keylen)).find? (m.has key keylen) with
  | none => rfl
  | some a =>
    obtain ⟨entry, hentry, -⟩ := HashMap.has_iff.mp (List.find?_some hfind)
    rw [Option.bind_some, hentry]
    rfl

/-- Nothing but a thread's place has changed. -/
theorem Rel.setPc {s : SharedMap κ ν} {x : AtomicMap κ ν} {pc : MapPc κ ν} {p : MapPhase κ ν} (h : Rel s lists x)
    (hrole : role s.map pc = role s.map (s.pc t)) (hok : PcOk s.map lists pc p) :
    Rel (s.setPc t pc) lists ⟨x.state, Function.update x.phase t p⟩ := by
  have hroles : ∀ u, role s.map (Function.update s.pc t pc u) = role s.map (s.pc u) := by
    intro u
    by_cases hut : u = t
    · rw [hut, Function.update_self, hrole]
    · rw [Function.update_of_ne hut]
  refine ⟨h.counted, h.locked.setPc hrole, ⟨fun i hi hnil hall => ?_, fun i hi hall => ?_⟩, h.stands, fun u => ?_⟩
  · exact h.ends.empty i hi hnil fun u ρ hρ => hall u ρ ((hroles u).trans hρ)
  · exact h.ends.tail i hi fun u ρ hρ => hall u ρ ((hroles u).trans hρ)
  · show PcOk s.map lists (Function.update s.pc t pc u) (Function.update x.phase t p u)
    by_cases hut : u = t
    · rw [hut, Function.update_self, Function.update_self]
      exact hok
    · rw [Function.update_of_ne hut, Function.update_of_ne hut]
      exact h.pcs u

/-- The same for the atomic map as it is. -/
theorem Rel.stay {s : SharedMap κ ν} {x : AtomicMap κ ν} {pc : MapPc κ ν} (h : Rel s lists x)
    (hrole : role s.map pc = role s.map (s.pc t)) (hok : PcOk s.map lists pc (x.phase t)) : Rel (s.setPc t pc) lists x := by
  have hrel := h.setPc hrole hok
  rwa [Function.update_eq_self] at hrel

/-! ### Writes under the lock -/

theorem Rel.holds_iff {s : SharedMap κ ν} {x : AtomicMap κ ν} {ρ : Role} (h : Rel s lists x) (hρ : role s.map (s.pc t) = some ρ) :
    s.Holds u ρ.bucket ↔ u = t := by
  constructor
  · intro hu
    exact h.locked.excl u t ρ.bucket hu ⟨ρ, hρ, rfl⟩
  · rintro rfl
    exact ⟨ρ, hρ, rfl⟩

/-- A thread that holds the lock of bucket `j` writes to the memory of the bucket. -/
theorem Rel.write {s : SharedMap κ ν} {x x' : AtomicMap κ ν} {ρ : Role} {pc : MapPc κ ν} (h : Rel s lists x)
    (hρ : role s.map (s.pc t) = some ρ) (ρ' : Role) (hρ' : role m' pc = some ρ') (hsame : ρ'.bucket = ρ.bucket)
    (hag : Agrees s.map m' lists lists' ρ.bucket) (hcounted : Counted m' lists')
    (hempty : lists' ρ.bucket = [] → ρ'.linked = false → m'.links.next (.bucket ρ.bucket) = .bucket ρ.bucket)
    (htail : ρ'.backed = false → m'.links.prev (.bucket ρ.bucket) = lastNode lists' ρ.bucket) (hstands : Stands m' lists' x'.state)
    (hphase : ∀ u, u ≠ t → x'.phase u = x.phase u) (hok : PcOk m' lists' pc (x'.phase t)) :
    Rel { s with map := m', pc := Function.update s.pc t pc } lists' x' := by
  have hroleEq : ∀ pc : MapPc κ ν, role m' pc = role s.map pc := by
    intro pc
    have hidx := hag.index
    cases pc with
    | first q => cases q <;> simp only [role, searchRole, hidx]
    | count q node => cases q <;> simp only [role, searchRole, hidx]
    | loop q c node => cases q <;> simp only [role, searchRole, hidx]
    | next q c a => cases q <;> simp only [role, searchRole, hidx]
    | create entry r => simp only [role, hidx]
    | _ => rfl
  have hother : ∀ u, u ≠ t → role m' (Function.update s.pc t pc u) = role s.map (s.pc u) := by
    intro u hu
    rw [Function.update_of_ne hu, hroleEq]
  have hself : role m' (Function.update s.pc t pc t) = some ρ' := by rw [Function.update_self, hρ']
  -- who holds a lock holds it still
  have hholds : ∀ u i, Holds { s with map := m', pc := Function.update s.pc t pc } u i ↔ s.Holds u i := by
    intro u i
    by_cases hut : u = t
    · subst hut
      simp only [Holds, hself, hρ, Option.some.injEq, exists_eq_left', hsame]
    · simp only [Holds, hother u hut]
  refine ⟨hcounted, ⟨fun u v i hu hv => ?_, fun i => ?_⟩, ⟨fun i hi hnil hall => ?_, fun i hi hall => ?_⟩, hstands, fun u => ?_⟩
  · exact h.locked.excl u v i ((hholds u i).mp hu) ((hholds v i).mp hv)
  · exact (h.locked.lock i).trans (exists_congr fun u => (hholds u i).symm)
  · have hi : i < s.map.buckets := hag.buckets ▸ hi
    by_cases hij : i = ρ.bucket
    · subst hij
      exact hempty hnil (hall t ρ' hself hsame)
    · obtain ⟨hlists, -, -, hnext, -⟩ := hag.same i hi hij
      show m'.links.next _ = _
      rw [hnext]
      refine h.ends.empty i hi (hlists ▸ hnil) fun u σ hσ hb => ?_
      by_cases hut : u = t
      · subst hut
        rw [hρ] at hσ
        cases hσ
        exact absurd hb.symm hij
      · exact hall u σ ((hother u hut).trans hσ) hb
  · have hi : i < s.map.buckets := hag.buckets ▸ hi
    by_cases hij : i = ρ.bucket
    · subst hij
      exact htail (hall t ρ' hself hsame)
    · obtain ⟨hlists, -, hprev, -, -⟩ := hag.same i hi hij
      show m'.links.prev _ = _
      rw [hprev, lastNode, hlists]
      refine h.ends.tail i hi fun u σ hσ hb => ?_
      by_cases hut : u = t
      · subst hut
        rw [hρ] at hσ
        cases hσ
        exact absurd hb.symm hij
      · exact hall u σ ((hother u hut).trans hσ) hb
  · show PcOk m' lists' (Function.update s.pc t pc u) (x'.phase u)
    by_cases hut : u = t
    · subst hut
      rw [Function.update_self]
      exact hok
    · rw [Function.update_of_ne hut, hphase u hut]
      refine hag.pcOk h.counted (fun σ hσ hb => hut ?_) (h.pcs u)
      exact (h.holds_iff hρ).mp ⟨σ, hσ, hb⟩

/-- The address is on no list. -/
theorem New.notMem {r : MapReturn ν} {p : MapPhase κ ν} (h : New m lists i a r p) (hc : Counted m lists) (hj : j < m.buckets) :
    a ∉ lists j := by
  intro hmem
  obtain ⟨entry, c, hentry, hi, -, -⟩ := h.entry
  obtain ⟨entry', hentry', hj'⟩ := hc.placed j hj a hmem
  rw [hentry] at hentry'
  cases hentry'
  exact h.fresh (hi.symm.trans hj' ▸ hmem)

theorem New.lt {r : MapReturn ν} {p : MapPhase κ ν} (h : New m lists i a r p) (hc : Counted m lists) : i < m.buckets := by
  obtain ⟨entry, -, -, hi, -⟩ := h.entry
  exact hi ▸ hc.index entry.key entry.keylen

theorem Rel.prev_head {s : SharedMap κ ν} {x : AtomicMap κ ν} {ρ : Role} (h : Rel s lists x) (hρ : role s.map (s.pc t) = some ρ)
    (hlt : ρ.bucket < s.map.buckets) (hback : ρ.backed = false) :
    s.map.links.prev (.bucket ρ.bucket) = lastNode lists ρ.bucket := by
  refine h.ends.tail _ hlt fun u σ hσ hb => ?_
  rw [(h.holds_iff hρ).mp ⟨σ, hσ, hb⟩, hρ] at hσ
  rw [← Option.some.inj hσ]
  exact hback

theorem Rel.next_head {s : SharedMap κ ν} {x : AtomicMap κ ν} {ρ : Role} (h : Rel s lists x) (hρ : role s.map (s.pc t) = some ρ)
    (hlt : ρ.bucket < s.map.buckets) (hlink : ρ.linked = false) (hnil : lists ρ.bucket = []) :
    s.map.links.next (.bucket ρ.bucket) = .bucket ρ.bucket := by
  refine h.ends.empty _ hlt hnil fun u σ hσ hb => ?_
  rw [(h.holds_iff hρ).mp ⟨σ, hσ, hb⟩, hρ] at hσ
  rw [← Option.some.inj hσ]
  exact hlink

/-- The accesses of an insertion before the count is stored. -/
theorem Rel.link {s : SharedMap κ ν} {x : AtomicMap κ ν} {r : MapReturn ν} {step : LinkStep} (h : Rel s lists x)
    (hpc : s.pc t = .link i a r step) (hstep : ∀ n, step ≠ .storeCount n) : Rel (s.linkStep t i a r step) lists x := by
  have hok := h.pcs t
  have hρ : role s.map (s.pc t) = some ⟨i, linked step, backed step⟩ := by rw [hpc, role]
  rw [hpc] at hok
  obtain ⟨hnew, hlink⟩ := hok
  have hc := h.counted
  have hlt := hnew.lt hc
  have hfresh : ∀ j, j < s.map.buckets → a ∉ lists j := fun j hj => hnew.notMem hc hj
  -- the new entry is the same for the memory after the step
  have hnew' : ∀ {m'}, Agrees s.map m' lists lists i → New m' lists i a r (x.phase t) := by
    intro m' hag
    obtain ⟨entry, c, hentry, hi, hp, happ⟩ := hnew.entry
    exact ⟨⟨entry, c, hag.entries a entry hentry, by rw [hag.index, hi], hp, hag.appends_self hc happ⟩, hnew.fresh, hnew.room⟩
  cases step with
  | tail =>
    have hprev := h.prev_head hρ hlt rfl
    exact h.stay (by rw [hpc, role, role]; rfl) ⟨hnew, hprev⟩
  | nodeNext prev =>
    have hag := @agrees_next _ _ s.map lists i (.entry a) (.bucket i)
      (fun j hj _ => ⟨(bucket_ne_entry j a).symm, entry_ne_lastNode (hfresh j hj)⟩) fun j heq =>
        absurd heq.symm (bucket_ne_entry j a)
    have hcounted := @Counted.setNext _ _ s.map lists (.entry a) (.bucket i) hc fun j hj hmem => by
      rcases List.mem_cons.mp (List.dropLast_subset _ hmem) with heq | hmem
      · cases heq
      · obtain ⟨b, hb, heq⟩ := List.mem_map.mp hmem
        cases heq
        exact hfresh j hj hb
    refine h.write hρ ⟨i, false, false⟩ rfl rfl hag hcounted (fun hnil _ => ?_) (fun _ => h.prev_head hρ hlt rfl) h.stands
      (fun u _ => rfl) ⟨hnew' hag, hlink⟩
    exact (Function.update_of_ne (bucket_ne_entry i a) (.bucket i) s.map.links.next).trans (h.next_head hρ hlt rfl hnil)
  | nodePrev prev =>
    have hag := @agrees_prev _ _ s.map lists i (.entry a) prev fun j _ => (bucket_ne_entry j a).symm
    refine h.write hρ ⟨i, false, false⟩ rfl rfl hag ⟨hc.pos, hc.count, fun j hj => ?_, hc.placed, hc.nodup, hc.room⟩
      (fun hnil _ => h.next_head hρ hlt rfl hnil) (fun _ => ?_) h.stands (fun u _ => rfl) ⟨hnew' hag, hlink⟩
    · exact (hc.path j hj).frame fun u _ => rfl
    · exact (Function.update_of_ne (bucket_ne_entry i a) prev s.map.links.prev).trans (h.prev_head hρ hlt rfl)
  | prevNext prev =>
    obtain rfl : prev = lastNode lists i := hlink
    have hout : ∀ j, j < s.map.buckets → j ≠ i → lastNode lists i ∉ HashNode.bucket j :: (lists j).map .entry :=
      fun j hj hji => hc.lastNode_notMem hlt hj fun heq => hji heq.symm
    have hfirst : ∀ j, lastNode lists i = .bucket j → s.map.links.next (lastNode lists i) = lastNode lists i := by
      intro j heq
      rcases lastNode_cases with ⟨hnil, hl⟩ | ⟨b, -, hl⟩
      · rw [hl]
        exact h.next_head hρ hlt rfl hnil
      · rw [hl] at heq
        cases heq
    have hag := @agrees_next _ _ s.map lists i (lastNode lists i) (.entry a) (fun j hj hji =>
      ⟨fun heq => hout j hj hji (heq ▸ List.mem_cons_self), fun heq => hout j hj hji (heq ▸ lastNode_mem)⟩) hfirst
    refine h.write hρ ⟨i, true, false⟩ rfl rfl hag (hc.setNext fun j hj hmem => ?_) (fun _ hl => Bool.noConfusion hl)
      (fun _ => h.prev_head hρ hlt rfl) h.stands (fun u _ => rfl) ⟨hnew' hag, Function.update_self ..⟩
    by_cases hji : j = i
    · subst hji
      exact lastNode_notMem_dropLast (hc.nodup j hj) hmem
    · exact hout j hj hji (List.dropLast_subset _ hmem)
  | nextPrev =>
    have hag := @agrees_prev _ _ s.map lists i (.bucket i) (.entry a) fun j hji heq => hji (HashNode.bucket.inj heq).symm
    refine h.write hρ ⟨i, true, true⟩ rfl rfl hag ⟨hc.pos, hc.count, fun j hj => ?_, hc.placed, hc.nodup, hc.room⟩
      (fun _ hl => Bool.noConfusion hl) (fun hb => Bool.noConfusion hb) h.stands (fun u _ => rfl)
      ⟨hnew' hag, hlink, Function.update_self ..⟩
    exact (hc.path j hj).frame fun u _ => rfl
  | loadCount => exact h.stay (by rw [hpc, role, role]; rfl) ⟨hnew, hlink, rfl⟩
  | storeCount n => exact absurd rfl (hstep n)

/-- `createNewEntry`: the entry is in no list yet. -/
theorem Rel.allocate {s : SharedMap κ ν} {x : AtomicMap κ ν} {entry : HashMapEntry κ ν} {r : MapReturn ν} (h : Rel s lists x)
    (hpc : s.pc t = .create entry r) (ha : s.map.allocates a = true) :
    Rel ({ s with map := s.map.createNewEntry a entry.key entry.keylen entry.value }.setPc t
      (.link (s.map.hashIndex entry.key entry.keylen) a r .tail)) lists x := by
  obtain ⟨hnone, hroom⟩ := HashMap.allocates_iff.mp ha
  have hok := h.pcs t
  have hρ : role s.map (s.pc t) = some ⟨s.map.hashIndex entry.key entry.keylen, false, false⟩ := by rw [hpc, role]
  rw [hpc] at hok
  obtain ⟨c, hp, happ⟩ := hok
  have hc := h.counted
  have hlt := hc.index entry.key entry.keylen
  have hfresh : ∀ j, j < s.map.buckets → a ∉ lists j := by
    intro j hj hmem
    obtain ⟨e, he, -⟩ := hc.placed j hj a hmem
    rw [hnone] at he
    cases he
  have hentries : ∀ b e, s.map.entries b = some e →
      (s.map.createNewEntry a entry.key entry.keylen entry.value).entries b = some e := by
    intro b e he
    refine (Function.update_of_ne ?_ _ _).trans he
    rintro rfl
    rw [hnone] at he
    cases he
  have hnext : ∀ u, u ≠ HashNode.entry a →
      (s.map.createNewEntry a entry.key entry.keylen entry.value).links.next u = s.map.links.next u := fun u hu =>
    Function.update_of_ne hu _ _
  have hprev : ∀ u, u ≠ HashNode.entry a →
      (s.map.createNewEntry a entry.key entry.keylen entry.value).links.prev u = s.map.links.prev u := fun u hu =>
    Function.update_of_ne hu _ _
  have hag : Agrees s.map (s.map.createNewEntry a entry.key entry.keylen entry.value) lists lists
      (s.map.hashIndex entry.key entry.keylen) :=
    ⟨rfl, rfl, hentries, fun i => ⟨[], (List.append_nil _).symm⟩, fun i => .inr (hnext _ (bucket_ne_entry i a)), fun i hi _ =>
      ⟨rfl, rfl, hprev _ (bucket_ne_entry i a), hnext _ (bucket_ne_entry i a), hnext _ (entry_ne_lastNode (hfresh i hi)).symm⟩⟩
  have hmem : ∀ i, i < s.map.buckets → ∀ u ∈ HashNode.bucket i :: (lists i).map .entry, u ≠ .entry a := by
    rintro i hi u hu rfl
    rcases List.mem_cons.mp hu with heq | hu
    · cases heq
    · obtain ⟨b, hb, heq⟩ := List.mem_map.mp hu
      cases heq
      exact hfresh i hi hb
  refine h.write hρ ⟨s.map.hashIndex entry.key entry.keylen, false, false⟩ rfl rfl hag
    ⟨hc.pos, hc.count, fun i hi => ?_, fun i hi b hb => ?_, hc.nodup, hc.room⟩ (fun hnil _ => ?_) (fun _ => ?_) (fun i hi => ?_)
    (fun u _ => rfl) ⟨⟨⟨entry, c, Function.update_self .., rfl, hp, hag.appends_self hc happ⟩, hfresh _ hlt, hroom⟩, trivial⟩
  · exact (hc.path i hi).frame fun u hu => hnext u (hmem i hi u (List.dropLast_subset _ hu))
  · obtain ⟨e, he, hi'⟩ := hc.placed i hi b hb
    exact ⟨e, hentries b e he, hi'⟩
  · exact (hnext _ (bucket_ne_entry _ a)).trans (h.next_head hρ hlt rfl hnil)
  · exact (hprev _ (bucket_ne_entry _ a)).trans (h.prev_head hρ hlt rfl)
  · refine (List.map_congr_left fun b hb => ?_).trans (h.stands i hi)
    obtain ⟨e, he, -⟩ := hc.placed i hi b hb
    exact (hentries b e he).trans he.symm

/-- The atomic map appends what the call appends. -/
theorem Appends.apply {x : AtomicMap κ ν} {entry : HashMapEntry κ ν} {r : MapReturn ν} {c : MapCall κ ν}
    (h : Appends m lists entry r c) (hc : Counted m lists) (hstands : Stands m lists x.state) :
    (spec κ ν).apply x.state c = (x.state ++ [entry], r) := by
  cases c with
  | insert e =>
    obtain ⟨rfl, rfl⟩ := h
    rfl
  | search q =>
    cases q with
    | find key keylen => exact absurd h id
    | insertIfAbsent e =>
      obtain ⟨rfl, rfl, habsent⟩ := h
      have hnone : (lookup x.state e.key e.keylen).isSome = false := by
        rw [← isSome_lookup hstands hc, List.find?_eq_none.mpr fun a ha => by rw [habsent a ha]; exact Bool.false_ne_true]
        rfl
      show (if _ then _ else _) = _
      rw [hnone]
      rfl

/-- The store of the count: the insertion takes effect. -/
theorem Rel.storeCount {s : SharedMap κ ν} {x : AtomicMap κ ν} {r : MapReturn ν} (h : Rel s lists x)
    (hpc : s.pc t = .link i a r (.storeCount n)) : ∃ c es, x.phase t = .called c ∧ (spec κ ν).apply x.state c = (es, r) ∧
      Rel (s.linkStep t i a r (.storeCount n)) (Function.update lists i (lists i ++ [a]))
        ⟨es, Function.update x.phase t (.done r)⟩ := by
  have hok := h.pcs t
  have hρ : role s.map (s.pc t) = some ⟨i, true, true⟩ := by rw [hpc, role, linked, backed]
  rw [hpc] at hok
  obtain ⟨hnew, ⟨hnext, hprev⟩, hn⟩ := hok
  have hc := h.counted
  have hlt := hnew.lt hc
  have hlen := hc.length_lt hlt
  obtain ⟨entry, c, hentry, hi, hp, happ⟩ := hnew.entry
  have hself : Function.update lists i (lists i ++ [a]) i = lists i ++ [a] := Function.update_self ..
  have hother : ∀ j, j ≠ i → Function.update lists i (lists i ++ [a]) j = lists j := fun j hj => Function.update_of_ne hj _ _
  have hag : Agrees s.map (s.setCount i n).map lists (Function.update lists i (lists i ++ [a])) i := by
    refine ⟨rfl, rfl, fun b e he => he, fun j => ?_, fun j => .inr rfl, fun j hj hji => ?_⟩
    · by_cases hji : j = i
      · exact ⟨[a], by rw [hji, hself]⟩
      · exact ⟨[], by rw [hother j hji, List.append_nil]⟩
    · exact ⟨hother j hji, Function.update_of_ne hji _ _, rfl, rfl, rfl⟩
  refine ⟨c, _, hp, happ.apply hc h.stands, ?_⟩
  refine h.write hρ ⟨i, false, false⟩ rfl rfl hag ⟨hc.pos, fun j hj => ?_, fun j hj => ?_, fun j hj b hb => ?_, fun j hj => ?_,
    fun j hj b hb => ?_⟩ (fun hnil _ => ?_) (fun _ => ?_) (fun j hj => ?_) (fun u hu => Function.update_of_ne hu _ _)
    (Function.update_self ..)
  · show Function.update s.map.count i n j = _
    by_cases hji : j = i
    · rw [hji, Function.update_self, hself, List.length_append, hn, hc.count i hlt, Nat.mod_eq_of_lt (by omega)]
      rfl
    · rw [Function.update_of_ne hji, hother j hji]
      exact hc.count j hj
  · by_cases hji : j = i
    · subst hji
      rw [hself]
      exact Path.append_last ((hc.path j hj).frame fun _ _ => rfl) hnext
    · rw [hother j hji]
      exact (hc.path j hj).frame fun _ _ => rfl
  · by_cases hji : j = i
    · subst hji
      rw [hself] at hb
      rcases List.mem_append.mp hb with hb | hb
      · exact hc.placed j hj b hb
      · rw [List.mem_singleton.mp hb]
        exact ⟨entry, hentry, hi⟩
    · rw [hother j hji] at hb
      exact hc.placed j hj b hb
  · by_cases hji : j = i
    · subst hji
      rw [hself, List.nodup_append]
      refine ⟨hc.nodup j hj, List.nodup_singleton a, fun b hb b' hb' => ?_⟩
      rw [List.mem_singleton.mp hb']
      rintro rfl
      exact hnew.fresh hb
    · rw [hother j hji]
      exact hc.nodup j hj
  · by_cases hji : j = i
    · subst hji
      rw [hself] at hb
      rcases List.mem_append.mp hb with hb | hb
      · exact hc.room j hj b hb
      · rw [List.mem_singleton.mp hb]
        exact hnew.room
    · rw [hother j hji] at hb
      exact hc.room j hj b hb
  · rw [hself] at hnil
    exact absurd hnil (List.append_ne_nil_of_right_ne_nil _ (List.cons_ne_nil a []))
  · exact hprev.trans (lastNode_append hself).symm
  · show (Function.update lists i (lists i ++ [a]) j).map s.map.entries =
      ((x.state ++ [entry]).filter fun e => decide (s.map.hashIndex e.key e.keylen = j)).map some
    rw [List.filter_append, List.map_append, ← h.stands j hj]
    by_cases hji : j = i
    · subst hji
      rw [hself, List.map_append, List.filter_singleton, decide_eq_true hi, List.map_singleton, hentry]
      rfl
    · rw [hother j hji, List.filter_singleton, decide_eq_false fun heq => hji (heq.symm.trans hi)]
      exact (List.append_nil _).symm

/-- A thread takes a lock or gives it back. -/
theorem Rel.turn {s : SharedMap κ ν} {x : AtomicMap κ ν} {pc : MapPc κ ν} (h : Rel s lists x)
    (hold : ∀ ρ, role s.map (s.pc t) = some ρ → ρ.linked = false ∧ ρ.backed = false)
    (hlocked : ((s.setLock i n).setPc t pc).Locked) (hok : PcOk s.map lists pc (x.phase t)) :
    Rel ((s.setLock i n).setPc t pc) lists x := by
  have hroles : ∀ u, u ≠ t → role s.map (Function.update s.pc t pc u) = role s.map (s.pc u) := by
    intro u hu
    rw [Function.update_of_ne hu]
  refine ⟨h.counted, hlocked, ⟨fun j hj hnil hall => ?_, fun j hj hall => ?_⟩, h.stands, fun u => ?_⟩
  · refine h.ends.empty j hj hnil fun u ρ hρ hb => ?_
    by_cases hut : u = t
    · exact (hold ρ (hut ▸ hρ)).1
    · exact hall u ρ ((hroles u hut).trans hρ) hb
  · refine h.ends.tail j hj fun u ρ hρ hb => ?_
    by_cases hut : u = t
    · exact (hold ρ (hut ▸ hρ)).2
    · exact hall u ρ ((hroles u hut).trans hρ) hb
  · show PcOk s.map lists (Function.update s.pc t pc u) (x.phase u)
    by_cases hut : u = t
    · rw [hut, Function.update_self]
      exact hok
    · rw [Function.update_of_ne hut]
      exact h.pcs u

theorem Rel.lock {s : SharedMap κ ν} {x : AtomicMap κ ν} {c : MapCall κ ν} (h : Rel s lists x) (hpc : s.pc t = .lock i c)
    (hfree : s.lock i ≠ 1) : Rel ((s.setLock i 1).setPc t (SharedMap.locked c)) lists x := by
  have hok := h.pcs t
  rw [hpc] at hok
  obtain ⟨hp, ρ, hρ, hbucket⟩ := hok
  have hnobody : ∀ u, ¬ s.Holds u i := fun u hu => hfree ((h.locked.lock i).mpr ⟨u, hu⟩)
  -- the thread has got the lock, and nothing else has changed
  have hholds : ∀ u j, ((s.setLock i 1).setPc t (SharedMap.locked c)).Holds u j ↔ u = t ∧ j = i ∨ u ≠ t ∧ s.Holds u j := by
    intro u j
    by_cases hut : u = t
    · subst hut
      simp only [Holds, SharedMap.setPc, setLock, Function.update_self, hρ, hbucket, Option.some.injEq, exists_eq_left', ne_eq,
        not_true, false_and, or_false, true_and]
      exact eq_comm
    · simp only [Holds, SharedMap.setPc, setLock, Function.update_of_ne hut, hut, ne_eq, not_false_iff, true_and, false_and,
        false_or]
  refine h.turn (fun ρ' hρ' => ?_) ⟨fun u v j hu hv => ?_, fun j => ?_⟩ ?_
  · rw [hpc] at hρ'
    cases hρ'
  · rcases (hholds u j).mp hu with ⟨hut, hji⟩ | ⟨-, hu'⟩
    · rcases (hholds v j).mp hv with ⟨hvt, -⟩ | ⟨-, hv'⟩
      · rw [hut, hvt]
      · exact absurd (hji ▸ hv') (hnobody v)
    · rcases (hholds v j).mp hv with ⟨-, hji⟩ | ⟨-, hv'⟩
      · exact absurd (hji ▸ hu') (hnobody u)
      · exact h.locked.excl u v j hu' hv'
  · show Function.update s.lock i 1 j = 1 ↔ _
    simp only [hholds]
    by_cases hji : j = i
    · subst hji
      rw [Function.update_self]
      exact ⟨fun _ => ⟨t, .inl ⟨rfl, rfl⟩⟩, fun _ => rfl⟩
    · rw [Function.update_of_ne hji, h.locked.lock]
      refine exists_congr fun u => ⟨fun hu => .inr ⟨?_, hu⟩, fun hu => ?_⟩
      · rintro rfl
        obtain ⟨ρ', hρ', -⟩ := hu
        rw [hpc] at hρ'
        cases hρ'
      · rcases hu with ⟨-, hj⟩ | ⟨-, hu⟩
        · exact absurd hj hji
        · exact hu
  · cases c with
    | insert e =>
      exact ⟨_, hp, rfl, rfl⟩
    | search q => exact hp

theorem Rel.unlock {s : SharedMap κ ν} {x : AtomicMap κ ν} {r : MapReturn ν} (h : Rel s lists x) (hpc : s.pc t = .unlock i r) :
    Rel ((s.setLock i 0).setPc t (.ret r)) lists x := by
  have hok := h.pcs t
  have hρ : role s.map (s.pc t) = some ⟨i, false, false⟩ := by rw [hpc, role]
  rw [hpc] at hok
  have hholds : ∀ u j, ((s.setLock i 0).setPc t (.ret r)).Holds u j ↔ u ≠ t ∧ s.Holds u j := by
    intro u j
    by_cases hut : u = t
    · subst hut
      simp only [Holds, SharedMap.setPc, setLock, Function.update_self, role, reduceCtorEq, false_and, exists_false, ne_eq,
        not_true]
    · simp only [Holds, SharedMap.setPc, setLock, Function.update_of_ne hut, hut, ne_eq, not_false_iff, true_and]
  refine h.turn (fun ρ' hρ' => ?_) ⟨fun u v j hu hv => ?_, fun j => ?_⟩ hok
  · rw [hρ] at hρ'
    cases hρ'
    exact ⟨rfl, rfl⟩
  · exact h.locked.excl u v j ((hholds u j).mp hu).2 ((hholds v j).mp hv).2
  · show Function.update s.lock i 0 j = 1 ↔ _
    simp only [hholds]
    by_cases hji : j = i
    · subst hji
      rw [Function.update_self]
      refine ⟨fun heq => absurd heq (by decide), ?_⟩
      rintro ⟨u, hut, hu⟩
      exact absurd ((h.holds_iff hρ).mp hu) hut
    · rw [Function.update_of_ne hji, h.locked.lock]
      refine exists_congr fun u => ⟨fun hu => ⟨?_, hu⟩, fun hu => hu.2⟩
      rintro rfl
      obtain ⟨ρ', hρ', hb⟩ := hu
      rw [hρ] at hρ'
      cases hρ'
      exact hji hb.symm

/-! ### Searches -/

variable {s s' : SharedMap κ ν} {x : AtomicMap κ ν} {q : Search κ ν} {c : Nat}

/-- The atomic map has taken a step for the call of a thread, or none. -/
def Follows (s' : SharedMap κ ν) (x : AtomicMap κ ν) (e : Option (Event (MapCall κ ν) (MapReturn ν))) : Prop :=
  ∃ is y lists', Steps (atomic (spec κ ν)) x is y ∧ is.filterMap Label.visible = e.toList ∧ Rel s' lists' y

theorem Rel.follows (h : Rel s' lists x) : Follows s' x none := ⟨[], x, lists, .nil, rfl, h⟩

theorem Follows.perform {call : MapCall κ ν} {es : List (HashMapEntry κ ν)} {r : MapReturn ν} (hp : x.phase t = .called call)
    (happly : (spec κ ν).apply x.state call = (es, r)) (h : Rel s' lists ⟨es, Function.update x.phase t (.done r)⟩) :
    Follows s' x none := by
  have hstep := Step.perform (S := spec κ ν) t call hp
  rw [happly] at hstep
  exact ⟨[.perform t], _, lists, .cons hstep .nil, rfl, h⟩

/-- The first entry has been loaded. -/
theorem Rel.first (h : Rel s lists x) (hpc : s.pc t = .first q) :
    Rel (s.setPc t (.count q (s.map.links.next (.bucket (s.bucketOf q))))) lists x := by
  have hok := h.pcs t
  rw [hpc] at hok
  exact h.stay (by rw [hpc, role, role]) ⟨hok, .inl rfl⟩

/-- The count is loaded: the search takes effect, unless it is to insert what it will not find, or has strayed. -/
theorem Rel.count {node : HashNode} (h : Rel s lists x) (hpc : s.pc t = .count q node) :
    Follows (s.setPc t (.loop q (HashMap.toInt (s.map.count (s.bucketOf q))).toNat node)) x none := by
  have hok := h.pcs t
  rw [hpc] at hok
  obtain ⟨hp, hnode⟩ := hok
  have hc := h.counted
  have hi : s.bucketOf q < s.map.buckets := hc.index q.key q.keylen
  have hrole : ∀ c, role s.map (.loop q c node) = role s.map (s.pc t) := fun c => by rw [hpc, role, role]
  rw [hc.toInt_count hi]
  by_cases hstray : Strayed q (lists (s.bucketOf q)).length node
  · exact (h.stay (hrole _) (.inl hstray)).follows
  · -- the search has all entries before it
    have hhead : (lists (s.bucketOf q)).length ≠ 0 → (lists (s.bucketOf q)).head?.map .entry = some node := by
      intro hpos
      have hpath := hc.path _ hi
      cases hl : lists (s.bucketOf q) with
      | nil =>
        rw [hl] at hpos
        exact absurd rfl hpos
      | cons b bs =>
        rw [hl] at hpath
        rcases hnode with hnode | ⟨hq, hnode⟩
        · rw [hnode]
          exact congrArg some hpath.1.symm
        · exact absurd ⟨hq, hpos, _, hnode⟩ hstray
    have hwalk : ∀ p, Outcome s.map (lists (s.bucketOf q)) q p → PcOk s.map lists (.loop q (lists (s.bucketOf q)).length node) p := by
      intro p hout
      refine .inr ⟨[], lists (s.bucketOf q), rfl, ?_, hhead, by rwa [List.take_length]⟩
      cases q with
      | find key keylen => exact le_rfl
      | insertIfAbsent entry => exact ⟨rfl, fun a ha => absurd ha List.not_mem_nil⟩
    have hstep := fun p hout => h.setPc (hrole _) (hwalk p hout)
    cases q with
    | find key keylen =>
      have hrel := hstep _ rfl
      rw [show s.bucketOf (.find key keylen) = s.map.hashIndex key keylen from rfl, h.stands.lookup hc] at hrel
      exact .perform hp rfl hrel
    | insertIfAbsent entry =>
      have hfound := isSome_lookup h.stands hc entry.key entry.keylen
      by_cases hin : (lookup x.state entry.key entry.keylen).isSome = true
      · have happly : (spec κ ν).apply x.state (.search (.insertIfAbsent entry)) = (x.state, .present true) := if_pos hin
        exact .perform hp happly (hstep _ (if_pos (hfound.trans hin)).symm)
      · exact (h.stay (hrole _) (hwalk _ (hp.trans (if_neg fun heq => hin (hfound.symm.trans heq)).symm))).follows

/-- The search has come to its end. -/
theorem Rel.absent {node : HashNode} (h : Rel s lists x) (hpc : s.pc t = .loop q 0 node) :
    Rel (s.setPc t (absent q)) lists x := by
  have hok := h.pcs t
  rw [hpc] at hok
  rcases hok with ⟨-, hpos, -⟩ | ⟨as, bs, hlist, hcov, -, hout⟩
  · exact absurd rfl hpos
  · cases q with
    | find key keylen => exact h.stay (by rw [hpc]; rfl) hout
    | insertIfAbsent entry =>
      refine h.stay (by rw [hpc]; rfl) ⟨_, hout, rfl, rfl, fun a ha => ?_⟩
      obtain ⟨hlen, habsent⟩ := hcov
      have hlist : lists (s.map.hashIndex entry.key entry.keylen) = as ++ bs := hlist
      rw [hlist, List.length_eq_zero_iff.mp hlen.symm, List.append_nil] at ha
      exact habsent a ha

/-- A round of the search. -/
theorem Rel.examine {node : HashNode} (h : Rel s lists x) (hpc : s.pc t = .loop q (c + 1) node) :
    Rel (s.setPc t (s.examine q c node)) lists x := by
  have hok := h.pcs t
  rw [hpc] at hok
  have hc := h.counted
  rcases hok with ⟨⟨key, keylen, rfl⟩, -, i, rfl⟩ | ⟨as, bs, hlist, hcov, hhead, hout⟩
  · exact h.stay (by rw [hpc]; rfl) trivial
  · cases bs with
    | nil =>
      cases hhead (Nat.succ_ne_zero c)
    | cons a bs =>
      obtain rfl : HashNode.entry a = node := Option.some.inj (hhead (Nat.succ_ne_zero c))
      have hmem : a ∈ lists (s.map.hashIndex q.key q.keylen) := by
        rw [hlist]
        exact List.mem_append_right _ List.mem_cons_self
      obtain ⟨entry, hentry, -⟩ := hc.placed _ (hc.index q.key q.keylen) a hmem
      have hhas : s.map.has q.key q.keylen a = decide (entry.keylen = q.keylen ∧ entry.key = q.key) := by
        rw [HashMap.has, hentry, Option.any_some]
      rw [List.take_succ_cons] at hout
      rw [SharedMap.examine, hentry]
      dsimp only
      split
      · rename_i hmatch
        rw [decide_eq_true hmatch] at hhas
        cases q with
        | find key keylen =>
          have hhas : s.map.has key keylen a = true := hhas
          have hout : x.phase t = _ := hout
          refine h.stay (by rw [hpc]; rfl) ⟨entry, hentry, ?_⟩
          rw [hout, List.find?_cons, hhas, Option.bind_some, hentry, Option.map_some]
        | insertIfAbsent e =>
          have hhas : s.map.has e.key e.keylen a = true := hhas
          have hout : x.phase t = _ := hout
          refine h.stay (by rw [hpc]; rfl) ?_
          show x.phase t = _
          rw [hout, List.find?_cons, hhas]
          exact if_pos rfl
      · rename_i hmatch
        rw [decide_eq_false hmatch] at hhas
        refine h.stay (by rw [hpc, role, role]) ⟨as, bs, hlist, ?_, ?_⟩
        · cases q with
          | find key keylen => exact Nat.le_of_succ_le_succ hcov
          | insertIfAbsent e =>
            obtain ⟨hlen, habsent⟩ := hcov
            refine ⟨Nat.succ.inj hlen, fun b hb => ?_⟩
            rcases List.mem_append.mp hb with hb | hb
            · exact habsent b hb
            · rw [List.mem_singleton.mp hb]
              exact hhas
        · cases q with
          | find key keylen =>
            have hhas : s.map.has key keylen a = false := hhas
            have hout : x.phase t = _ := hout
            show x.phase t = _
            rw [hout, List.find?_cons, hhas]
          | insertIfAbsent e =>
            have hhas : s.map.has e.key e.keylen a = false := hhas
            have hout : x.phase t = _ := hout
            show x.phase t = _
            rw [hout, List.find?_cons, hhas]

/-- The pointer to the next entry is loaded. -/
theorem Rel.next (h : Rel s lists x) (hpc : s.pc t = .next q c a) :
    Rel (s.setPc t (.loop q c (s.map.links.next (.entry a)))) lists x := by
  have hok := h.pcs t
  rw [hpc] at hok
  obtain ⟨as, bs, hlist, hcov, hout⟩ := hok
  have hc := h.counted
  refine h.stay (by rw [hpc, role, role]) (.inr ⟨as ++ [a], bs, ?_, hcov, fun hpos => ?_, hout⟩)
  · rw [hlist, List.append_assoc, List.singleton_append]
  · cases bs with
    | nil => exact absurd (Nat.le_zero.mp hcov.le) hpos
    | cons b bs =>
      have hpath := hc.path _ (hc.index q.key q.keylen)
      rw [hlist] at hpath
      exact congrArg some hpath.next.symm

/-! ### Runs -/

theorem Rel.go (h : Rel s lists x) (hs : s.go t = some s') : Follows s' x none := by
  have hok := h.pcs t
  rw [SharedMap.go] at hs
  cases hpc : s.pc t with
  | idle =>
    rw [hpc] at hs
    cases hs
  | lock bucket call =>
    rw [hpc] at hs
    dsimp only at hs
    split at hs
    · -- the lock is taken: the exchange changes nothing
      rename_i hone
      cases hs
      have heq : s.setLock bucket 1 = s := by rw [setLock, Function.update_eq_self_iff.mpr hone.symm]
      rw [heq]
      exact h.follows
    · rename_i hfree
      cases hs
      exact (h.lock hpc hfree).follows
  | first q =>
    rw [hpc] at hs
    cases hs
    exact (h.first hpc).follows
  | count q node =>
    rw [hpc] at hs
    cases hs
    exact h.count hpc
  | loop q c node =>
    rw [hpc] at hs
    cases c with
    | zero =>
      cases hs
      exact (h.absent hpc).follows
    | succ c =>
      cases hs
      exact (h.examine hpc).follows
  | next q c a =>
    rw [hpc] at hs
    cases hs
    exact (h.next hpc).follows
  | value a =>
    rw [hpc] at hs hok
    obtain ⟨entry, hentry, hp⟩ := hok
    dsimp only at hs
    rw [hentry] at hs
    cases hs
    have hrel : Rel (s.setPc t (.ret (.value (some entry.value)))) lists x := h.stay (by rw [hpc]; rfl) hp
    exact hrel.follows
  | create entry r =>
    rw [hpc] at hs
    cases hs
  | link bucket a r step =>
    rw [hpc] at hs
    cases hs
    cases step with
    | storeCount n =>
      obtain ⟨call, es, hp, happly, hrel⟩ := h.storeCount hpc
      exact .perform hp happly hrel
    | _ => exact (h.link hpc fun n heq => LinkStep.noConfusion heq).follows
  | unlock bucket r =>
    rw [hpc] at hs
    cases hs
    exact (h.unlock hpc).follows
  | ret r =>
    rw [hpc] at hs
    cases hs
  | wild =>
    rw [hpc] at hs
    cases hs

variable [DecidableEq ν]

/-- Every step is one that the atomic map takes, or none. -/
theorem Rel.exec {act : MapAct κ ν} (h : Rel s lists x) (hno : s.noStray act) (hs : s.exec act = some s') :
    Follows s' x act.visible := by
  cases act with
  | stray t found => cases hno
  | event e =>
    cases e with
    | call t call =>
      rw [SharedMap.exec] at hs
      split at hs
      · rename_i hpc
        cases hs
        have hok := h.pcs t
        rw [hpc] at hok
        refine ⟨[.event (.call t call)], _, lists, .cons (.call t call hok) .nil, rfl, ?_⟩
        cases call with
        | insert entry => exact h.setPc (by rw [hpc]; rfl) ⟨rfl, _, rfl, rfl⟩
        | search q =>
          cases q with
          | find key keylen => exact h.setPc (by rw [hpc]; rfl) rfl
          | insertIfAbsent entry => exact h.setPc (by rw [hpc]; rfl) ⟨rfl, _, rfl, rfl⟩
      · cases hs
    | ret t r =>
      rw [SharedMap.exec] at hs
      split at hs
      · rename_i hpc
        cases hs
        have hok := h.pcs t
        rw [hpc] at hok
        exact ⟨[.event (.ret t r)], _, lists, .cons (.ret t r hok) .nil, rfl, h.setPc (by rw [hpc]; rfl) rfl⟩
      · cases hs
  | allocate t a =>
    rw [SharedMap.exec, SharedMap.allocate] at hs
    split at hs
    · rename_i hpc
      split at hs
      · rename_i ha
        cases hs
        exact (h.allocate hpc ha).follows
      · cases hs
    · cases hs
  | go t => exact h.go hs

omit [DecidableEq ν] in
theorem rel_initialized {hashfunc : κ → Nat → Nat} {size : Nat} (hsize : 0 < size) :
    Rel ⟨.initialized κ ν hashfunc size, fun _ => 0, fun _ => .idle⟩ (fun _ => []) ⟨[], fun _ => .idle⟩ := by
  refine ⟨⟨hsize, fun i _ => rfl, fun i _ => trivial, fun i _ a ha => absurd ha List.not_mem_nil,
    fun i _ => List.nodup_nil, fun i _ a ha => absurd ha List.not_mem_nil⟩, ⟨fun t u i ht => ?_, fun i => ?_⟩,
    ⟨fun i _ _ _ => rfl, fun i _ _ => rfl⟩, fun i _ => rfl, fun t => rfl⟩
  · obtain ⟨ρ, hρ, -⟩ := ht
    cases hρ
  · refine ⟨fun heq => absurd heq Nat.zero_ne_one, ?_⟩
    rintro ⟨t, ρ, hρ, -⟩
    cases hρ

theorem simulates (κ ν : Type) [DecidableEq κ] [DecidableEq ν] : Simulates ((system κ ν).restrict noStray) (atomic (spec κ ν))
    MapAct.visible Label.visible fun s x => ∃ lists, Rel s lists x where
  init := by
    rintro s ⟨hashfunc, size, hsize, rfl⟩
    exact ⟨_, rfl, fun _ => [], rel_initialized hsize⟩
  step := by
    rintro s act s' x ⟨lists, h⟩ ⟨hno, hs⟩
    obtain ⟨is, y, lists', hsteps, hvis, hrel⟩ := h.exec hno hs
    exact ⟨is, y, hsteps, hvis, lists', hrel⟩

/-- Also when a `find` reads on from the head of a bucket, whatever it returns: it does not touch the map. -/
theorem reachable_rel (h : Reachable (system κ ν) s) : ∃ x lists, Rel s lists x := by
  induction h with
  | init h =>
    obtain ⟨hashfunc, size, hsize, rfl⟩ := h
    exact ⟨_, _, rel_initialized hsize⟩
  | @step s s' act _ hs ih =>
    obtain ⟨x, lists, hrel⟩ := ih
    have hs : s.exec act = some s' := hs
    have hfollows : s.noStray act → ∃ y lists', Rel s' lists' y := fun hno => by
      obtain ⟨-, y, lists', -, -, hrel'⟩ := hrel.exec hno hs
      exact ⟨y, lists', hrel'⟩
    cases act with
    | stray t found =>
      rw [SharedMap.exec] at hs
      split at hs
      · rename_i hpc
        cases hs
        exact ⟨⟨x.state, Function.update x.phase t (.done (.value found))⟩, lists, hrel.setPc (by rw [hpc]; rfl) rfl⟩
      · cases hs
    | event e | allocate t a | go t => exact hfollows trivial

/-- No two threads are between `Lock` and `Unlock` of one bucket, and `_lock` is 1 exactly while one is. -/
theorem bucket_exclusive (h : Reachable (system κ ν) s) : s.Locked := by
  obtain ⟨x, lists, hrel⟩ := reachable_rel h
  exact hrel.locked

/-- In every interleaving of its threads, what they call and get back is what they could have from a map that performs each call at
    one moment between its call and its return, as long as no `find` returns that has taken the head of a bucket for an entry. -/
theorem history_linearizable {history : List (Event (MapCall κ ν) (MapReturn ν))}
    (h : Shows ((system κ ν).restrict noStray) MapAct.visible history) : IsLinearizable (spec κ ν) history := (simulates κ ν).shows h

/-- A map from numbers to numbers, with two buckets. -/
def smallMap : SharedMap Nat Nat := ⟨.initialized Nat Nat (fun key _ => key) 2, fun _ => 0, fun _ => .idle⟩

theorem smallMap_init : (system Nat Nat).init smallMap := ⟨_, 2, by decide, rfl⟩

/-- Thread 1 inserts key 1, up to the store of the count. -/
def insertOne : List (MapAct Nat Nat) :=
  [.event (.call 1 (.insert ⟨1, 8, 10⟩)), .go 1, .allocate 1 0, .go 1, .go 1, .go 1, .go 1, .go 1, .go 1, .go 1]

/-- While thread 1 inserts key 1, thread 0 asks for it: first it is not there, then it is. -/
def askTwice : List (MapAct Nat Nat) :=
  [.event (.call 0 (.search (.find 1 8))), .go 0, .go 0] ++ insertOne ++
    [.go 0, .event (.ret 0 (.value none)), .event (.call 0 (.search (.find 1 8))), .go 0, .go 0, .go 0, .go 0,
      .event (.ret 0 (.value (some 10))), .go 1, .event (.ret 1 .inserted)]

theorem bucket_exclusive_inserting : ∃ s, Reachable (system Nat Nat) s ∧ s.lock 1 = 1 ∧ s.Locked := by
  have hrun : ((insertOne.foldlM exec smallMap).map fun s => s.lock 1) = some 1 := by decide +kernel
  obtain ⟨s, hs, hlock⟩ := Option.map_eq_some_iff.mp hrun
  have hreach : Reachable (system Nat Nat) s := .of_foldlM (f := exec) (fun _ _ _ _ h => h) (.init smallMap_init) hs
  exact ⟨s, hreach, hlock, bucket_exclusive hreach⟩

theorem history_linearizable_askTwice : IsLinearizable (spec Nat Nat)
    [.call 0 (.search (.find 1 8)), .call 1 (.insert ⟨1, 8, 10⟩), .ret 0 (.value none), .call 0 (.search (.find 1 8)),
      .ret 0 (.value (some 10)), .ret 1 .inserted] := by
  have hrun : (askTwice.foldlM (fun (s : SharedMap Nat Nat) act => if s.noStray act then s.exec act else none) smallMap).isSome = true := by
    decide +kernel
  obtain ⟨s, hs⟩ := Option.isSome_iff_exists.mp hrun
  refine history_linearizable ⟨smallMap, askTwice, s, smallMap_init, .of_foldlM (fun s act s' h => ?_) hs, rfl⟩
  split at h
  · rename_i hno
    exact ⟨hno, h⟩
  · cases h

/-! ### Reading the head as an entry -/

/-- The next access of the thread reads what is not an entry. -/
def Doomed (s : SharedMap κ ν) (t : Nat) : Prop := ∃ s', s.go t = some s' ∧ s'.pc t = .wild

/-- Where an insertion goes on after an access. -/
def afterLink (s : SharedMap κ ν) (bucket a : Nat) (r : MapReturn ν) : LinkStep → MapPc κ ν
  | .tail => .link bucket a r (.nodeNext (s.map.links.prev (.bucket bucket)))
  | .nodeNext prev => .link bucket a r (.nodePrev prev)
  | .nodePrev prev => .link bucket a r (.prevNext prev)
  | .prevNext _ => .link bucket a r .nextPrev
  | .nextPrev => .link bucket a r .loadCount
  | .loadCount => .link bucket a r (.storeCount ((s.map.count bucket + 1) % 2 ^ 64))
  | .storeCount _ => .unlock bucket r

/-- Where a thread goes on after an access. -/
def after (s : SharedMap κ ν) : MapPc κ ν → MapPc κ ν
  | .lock bucket c => if s.lock bucket = 1 then .lock bucket c else SharedMap.locked c
  | .first q => .count q (s.map.links.next (.bucket (s.bucketOf q)))
  | .count q node => .loop q (HashMap.toInt (s.map.count (s.bucketOf q))).toNat node
  | .loop q 0 _ => absent q
  | .loop q (c + 1) node => s.examine q c node
  | .next q c a => .loop q c (s.map.links.next (.entry a))
  | .value a => (s.map.entries a).elim .wild fun entry => .ret (.value (some entry.value))
  | .link bucket a r step => s.afterLink bucket a r step
  | .unlock _ r => .ret r
  | pc => pc

omit [DecidableEq ν] in
theorem go_pc (hs : s.go t = some s') : s'.pc = Function.update s.pc t (after s (s.pc t)) := by
  rw [SharedMap.go] at hs
  cases hpc : s.pc t with
  | lock bucket c =>
    rw [hpc] at hs
    dsimp only at hs
    rw [after]
    split at hs
    · rename_i hone
      cases hs
      rw [if_pos hone, ← hpc, Function.update_eq_self]
      rfl
    · rename_i hfree
      cases hs
      rw [if_neg hfree]
      rfl
  | loop q c node =>
    rw [hpc] at hs
    cases c <;> (cases hs; rfl)
  | value a =>
    rw [hpc] at hs
    dsimp only at hs
    rw [after]
    cases hentry : s.map.entries a with
    | none =>
      rw [hentry] at hs
      cases hs
      rfl
    | some entry =>
      rw [hentry] at hs
      cases hs
      rfl
  | link bucket a r step =>
    rw [hpc] at hs
    cases hs
    cases step <;> rfl
  | _ =>
    rw [hpc] at hs
    cases hs
    try rfl

omit [DecidableEq ν] in
theorem examine_wild {node : HashNode} (hwild : s.examine q c node = .wild) :
    (∃ i, node = .bucket i) ∨ ∃ a, node = .entry a ∧ s.map.entries a = none := by
  cases node with
  | bucket i => exact .inl ⟨i, rfl⟩
  | entry a =>
    cases hentry : s.map.entries a with
    | none => exact .inr ⟨a, rfl, hentry⟩
    | some entry =>
      rw [examine, hentry] at hwild
      dsimp only at hwild
      split at hwild
      · cases q <;> cases hwild
      · cases hwild

omit [DecidableEq ν] in
/-- It is a search that has come to the head of the list with entries to go. -/
theorem Rel.doomed_iff (h : Rel s lists x) : s.Doomed t ↔ ∃ q c i, s.pc t = .loop q (c + 1) (.bucket i) := by
  constructor
  · rintro ⟨s', hs, hwild⟩
    have hok := h.pcs t
    have hgo := hs
    rw [go_pc hs, Function.update_self] at hwild
    rw [SharedMap.go] at hgo
    cases hpc : s.pc t with
    | loop q c node =>
      rw [hpc] at hwild hok
      cases c with
      | zero => cases q <;> cases hwild
      | succ c =>
        rcases examine_wild hwild with ⟨i, rfl⟩ | ⟨a, rfl, hnone⟩
        · exact ⟨q, c, i, rfl⟩
        · rcases hok with ⟨-, -, i, hnode⟩ | ⟨as, bs, hlist, -, hhead, -⟩
          · cases hnode
          · -- the entry is on the list of the bucket
            cases bs with
            | nil => cases hhead (Nat.succ_ne_zero c)
            | cons b bs =>
              obtain rfl : b = a := HashNode.entry.inj (Option.some.inj (hhead (Nat.succ_ne_zero c)))
              obtain ⟨entry, hentry, -⟩ := h.counted.placed _ (h.counted.index q.key q.keylen) b
                (hlist ▸ List.mem_append_right _ List.mem_cons_self)
              rw [hnone] at hentry
              cases hentry
    | value a =>
      rw [hpc] at hwild hok
      obtain ⟨entry, hentry, -⟩ := hok
      rw [after, hentry] at hwild
      cases hwild
    | lock bucket c =>
      rw [hpc, after] at hwild
      split at hwild
      · cases hwild
      · cases c <;> cases hwild
    | link i a r step =>
      rw [hpc] at hwild
      cases step <;> cases hwild
    | wild =>
      rw [hpc] at hgo
      cases hgo
    | _ =>
      rw [hpc] at hwild
      cases hwild
  · rintro ⟨q, c, i, hpc⟩
    refine ⟨s.setPc t .wild, ?_, Function.update_self ..⟩
    rw [SharedMap.go, hpc]
    rfl

/-- A search without the lock has found the list empty, and now loads the count of entries that have come since. -/
def Careless (s : SharedMap κ ν) (t : Nat) (act : MapAct κ ν) : Prop :=
  act = .go t ∧ ∃ key keylen, s.pc t = .count (.find key keylen) (.bucket (s.map.hashIndex key keylen)) ∧
    s.map.count (s.map.hashIndex key keylen) ≠ 0

omit [DecidableEq ν] in
theorem examine_ne_loop {node node' : HashNode} {c' : Nat} {q' : Search κ ν} : s.examine q c node ≠ .loop q' c' node' := by
  intro heq
  cases node with
  | bucket i => cases heq
  | entry a =>
    cases hentry : s.map.entries a with
    | none =>
      rw [examine, hentry] at heq
      cases heq
    | some entry =>
      rw [examine, hentry] at heq
      dsimp only at heq
      split at heq
      · cases q <;> cases heq
      · cases heq

omit [DecidableEq ν] in
/-- A step after which a search is at the head of the list with entries to go. -/
theorem Rel.after_head_iff (h : Rel s lists x) :
    (∃ q c i, after s (s.pc t) = .loop q (c + 1) (.bucket i)) ↔ Careless s t (.go t) := by
  have hok := h.pcs t
  have hc := h.counted
  constructor
  · rintro ⟨q, c, i, heq⟩
    cases hpc : s.pc t with
    | count q' node =>
      rw [hpc] at heq hok
      obtain ⟨-, hnode⟩ := hok
      have hi : s.bucketOf q' < s.map.buckets := hc.index q'.key q'.keylen
      rw [after, hc.toInt_count hi] at heq
      injection heq with hq hlen hhead
      subst hq hhead
      -- there is a first entry, and the head leads to it
      obtain ⟨b, bs, hlist⟩ := List.exists_cons_of_length_eq_add_one hlen
      have hpath := hc.path _ hi
      rw [hlist] at hpath
      rcases hnode with hnode | ⟨⟨key, keylen, rfl⟩, hnode⟩
      · exact absurd (hnode.trans hpath.1) (bucket_ne_entry i b)
      · refine ⟨rfl, key, keylen, ?_, ?_⟩
        · rw [hpc, hnode]
          rfl
        · have hcount := hc.count _ hi
          rw [hlen] at hcount
          exact fun hzero => Nat.succ_ne_zero c (hcount.symm.trans hzero)
    | next q' c' a =>
      rw [hpc] at heq hok
      obtain ⟨as, bs, hlist, hcov, -⟩ := hok
      injection heq with hq hlen hhead
      have hle := hcov.le
      cases bs with
      | nil =>
        rw [hlen] at hle
        exact absurd hle (Nat.not_succ_le_zero c)
      | cons b bs =>
        have hpath := hc.path _ (hc.index q'.key q'.keylen)
        rw [hlist] at hpath
        exact absurd (hhead.symm.trans hpath.next) (bucket_ne_entry i b)
    | loop q' c' node =>
      rw [hpc] at heq
      cases c' with
      | zero => cases q' <;> cases heq
      | succ c' => exact absurd heq examine_ne_loop
    | lock bucket call =>
      rw [hpc, after] at heq
      split at heq
      · cases heq
      · cases call <;> cases heq
    | value a =>
      rw [hpc, after] at heq
      cases hentry : s.map.entries a <;> (rw [hentry] at heq; cases heq)
    | link i' a r step =>
      rw [hpc] at heq
      cases step <;> cases heq
    | _ =>
      rw [hpc] at heq
      cases heq
  · rintro ⟨-, key, keylen, hpc, hcount⟩
    obtain ⟨c, hlen⟩ := Nat.exists_eq_succ_of_ne_zero hcount
    have hi := hc.index key keylen
    refine ⟨.find key keylen, c, s.map.hashIndex key keylen, ?_⟩
    rw [hpc, after, show s.bucketOf (.find key keylen) = s.map.hashIndex key keylen from rfl, hc.toInt_count hi, ← hc.count _ hi, hlen]

/-- The thread of a step. -/
def MapAct.thread : MapAct κ ν → Nat
  | .event (.call t _) | .event (.ret t _) | .allocate t _ | .go t | .stray t _ => t

theorem exec_pc_of_ne {act : MapAct κ ν} (hs : s.exec act = some s') (hne : t ≠ MapAct.thread act) : s'.pc t = s.pc t := by
  have hsame : ∀ {u pc}, t ≠ u → Function.update s.pc u pc t = s.pc t := fun hu => Function.update_of_ne hu _ _
  cases act with
  | event e =>
    cases e with
    | call u c =>
      rw [exec] at hs
      split at hs
      · cases hs
        exact hsame hne
      · cases hs
    | ret u r =>
      rw [exec] at hs
      split at hs
      · cases hs
        exact hsame hne
      · cases hs
  | allocate u a =>
    rw [exec, SharedMap.allocate] at hs
    split at hs
    · split at hs
      · cases hs
        exact hsame hne
      · cases hs
    · cases hs
  | go u =>
    rw [go_pc hs]
    exact hsame hne
  | stray u found =>
    rw [exec] at hs
    split at hs
    · cases hs
      exact hsame hne
    · cases hs

/-- In every interleaving, a thread comes to read what is not an entry only when it searches without the lock and loads the count of
    a bucket that was empty when it loaded the first entry, but is empty no more; and then it always does. -/
theorem strays_iff_careless {act : MapAct κ ν} (h : Reachable (system κ ν) s) (hs : s.exec act = some s') (hnot : ¬ s.Doomed t) :
    s'.Doomed t ↔ Careless s t act := by
  obtain ⟨x, lists, hrel⟩ := reachable_rel h
  obtain ⟨y, lists', hrel'⟩ := reachable_rel (.step act h hs)
  rw [hrel'.doomed_iff]
  rw [hrel.doomed_iff] at hnot
  by_cases hact : t = MapAct.thread act
  · subst hact
    cases act with
    | go u => rw [go_pc hs, show MapAct.thread (.go u : MapAct κ ν) = u from rfl, Function.update_self, hrel.after_head_iff]
    | stray u found =>
      refine ⟨?_, fun hcareless => by cases hcareless.1⟩
      rintro ⟨q, c, i, hpc⟩
      rw [exec] at hs
      split at hs
      · cases hs
        cases (Function.update_self u _ s.pc).symm.trans hpc
      · cases hs
    | event e =>
      refine ⟨?_, fun hcareless => by cases hcareless.1⟩
      rintro ⟨q, c, i, hpc⟩
      cases e with
      | call u call =>
        rw [exec] at hs
        split at hs
        · cases hs
          have hpc : s.begin call = .loop q (c + 1) (.bucket i) := (Function.update_self u _ s.pc).symm.trans hpc
          cases call with
          | insert entry => cases hpc
          | search q => cases q <;> cases hpc
        · cases hs
      | ret u r =>
        rw [exec] at hs
        split at hs
        · cases hs
          cases (Function.update_self u _ s.pc).symm.trans hpc
        · cases hs
    | allocate u a =>
      refine ⟨?_, fun hcareless => by cases hcareless.1⟩
      rintro ⟨q, c, i, hpc⟩
      rw [exec, SharedMap.allocate] at hs
      split at hs
      · split at hs
        · cases hs
          cases (Function.update_self u _ s.pc).symm.trans hpc
        · cases hs
      · cases hs
  · rw [exec_pc_of_ne hs hact]
    refine ⟨fun hdoomed => absurd hdoomed hnot, ?_⟩
    rintro ⟨rfl, -⟩
    exact absurd rfl hact

/-- Thread 0 asks for key 1 of an empty map; thread 1 inserts it between the two loads of the search. -/
theorem strays_iff_careless_between : ∃ s s' : SharedMap Nat Nat, Reachable (system Nat Nat) s ∧ s.exec (.go 0) = some s' ∧
    s'.Doomed 0 := by
  have hrun : (([.event (.call 0 (.search (.find 1 8))), .go 0] ++ insertOne ++ [.go 1] : List (MapAct Nat Nat)).foldlM exec
      smallMap).map (fun s => (s.pc 0, s.map.count 1, s.map.hashIndex 1 8)) =
        some (.count (.find 1 8) (.bucket 1), 1, 1) := by decide +kernel
  obtain ⟨s, hs, heq⟩ := Option.map_eq_some_iff.mp hrun
  simp only [Prod.mk.injEq] at heq
  obtain ⟨hpc, hcount, hidx⟩ := heq
  have hreach : Reachable (system Nat Nat) s := .of_foldlM (f := exec) (fun _ _ _ _ h => h) (.init smallMap_init) hs
  have hgo : s.exec (.go 0) = some (s.setPc 0 (.loop (.find 1 8) (HashMap.toInt (s.map.count (s.bucketOf (.find 1 8)))).toNat
      (.bucket 1))) := by
    rw [exec, go, hpc]
  refine ⟨s, _, hreach, hgo, (strays_iff_careless hreach hgo ?_).mpr ⟨rfl, 1, 8, ?_, ?_⟩⟩
  · rintro ⟨s', hs', hwild⟩
    rw [go_pc hs', Function.update_self, hpc] at hwild
    cases hwild
  · rw [hpc, hidx]
  · rw [hidx, hcount]
    exact Nat.one_ne_zero

end SharedMap

end DoubleTake
