import DBStream.ForStd.Fifo
import DBStream.ForStd.LinkedRing
import DBStream.Native.MemChannel

/-!
# The memory channel is a byte stream

From `m_tail` on the nodes form a ring: full nodes first, then the head node, then free ones.  What
the channel holds are the bytes of the full nodes and of the head node.  Every call of `send` and
`recv` that returns is a step of a queue with this content.
-/

namespace DBStream.Native.CLUSTER

/-- The bytes between the tail and the head of a node. -/
def MemNode.bytes (n : MemNode) : List UInt8 := (n.buf.take n.head).drop n.tail

/-- The positions of a node are in its buffer. -/
structure MemNode.Bounded (n : MemNode) : Prop where
  tail_le : n.tail ≤ n.head
  head_le : n.head ≤ memNodeSize
  length_buf : n.buf.length = memNodeSize

namespace MemNode

variable {n : MemNode} {data : List UInt8} {k : Nat}

theorem bytes_eq_nil (h : n.tail = n.head) : n.bytes = [] := by
  rw [bytes, h]
  exact List.drop_eq_nil_of_le (List.length_take_le _ _)

theorem Bounded.copyIn (h : n.Bounded) (hroom : data.length ≤ memNodeSize - n.head) :
    (n.copyIn data).Bounded ∧ (n.copyIn data).bytes = n.bytes ++ data := by
  have htail_le := h.tail_le
  have hhead_le := h.head_le
  have hlength := h.length_buf
  have htake : (n.buf.take n.head).length = n.head := by
    rw [List.length_take]
    omega
  have hused : (n.copyIn data).buf.take (n.copyIn data).head = n.buf.take n.head ++ data :=
    List.take_left' (by simp only [List.length_append, htake, MemNode.copyIn])
  constructor
  · constructor
    · exact Nat.le_add_right_of_le htail_le
    · change n.head + data.length ≤ memNodeSize
      omega
    · simp only [MemNode.copyIn, List.length_append, List.length_drop, List.length_take]
      omega
  · rw [bytes, hused, bytes]
    exact List.drop_append_of_le_length (htake.symm ▸ htail_le)

theorem Bounded.advance (h : n.Bounded) (hk : k ≤ n.head - n.tail) :
    (n.advance k).Bounded ∧ n.bytes = n.buf.slice n.tail k ++ (n.advance k).bytes ∧
      (n.buf.slice n.tail k).length = k := by
  have htail_le := h.tail_le
  have hhead_le := h.head_le
  have hlength := h.length_buf
  have hslice : n.buf.slice n.tail k = n.bytes.take k := by
    rw [List.slice, bytes, List.drop_take, List.take_take, Nat.min_eq_left hk]
  have hbounded : (n.advance k).Bounded := by
    constructor
    · change n.tail + k ≤ n.head
      omega
    · exact hhead_le
    · exact hlength
  refine ⟨hbounded, ?_, List.length_slice_of_le (by omega)⟩
  calc n.bytes
    _ = n.bytes.take k ++ n.bytes.drop k := (List.take_append_drop k _).symm
    _ = n.buf.slice n.tail k ++ (n.advance k).bytes := by
      rw [hslice, bytes, bytes, List.drop_drop]
      rfl

end MemNode

namespace MemChannel

variable {c c' : MemChannel} {a b : Nat} {f : MemNode → MemNode} {full free used u₁ u₂ : List Nat}
  {l data data' : List UInt8} {n k size fuel : Nat} {outtimeMs outtimeMs' : Int}

@[simp] theorem modify_m_head : (c.modify a f).m_head = c.m_head := rfl

@[simp] theorem modify_m_tail : (c.modify a f).m_tail = c.m_tail := rfl

@[simp] theorem nodes_modify_self : (c.modify a f).nodes a = f (c.nodes a) := by simp [modify]

theorem nodes_modify_of_ne (h : b ≠ a) : (c.modify a f).nodes b = c.nodes b := by
  simp [modify, h]

def next (c : MemChannel) (a : Nat) : Nat := (c.nodes a).next

theorem next_modify (hf : (f (c.nodes a)).next = (c.nodes a).next) : (c.modify a f).next = c.next := by
  funext b
  by_cases h : b = a
  · subst h
    simpa [next] using hf
  · simp [next, nodes_modify_of_ne h]

def content (c : MemChannel) (used : List Nat) : List UInt8 := used.flatMap fun a => (c.nodes a).bytes

theorem content_congr (h : ∀ a ∈ used, (c'.nodes a).bytes = (c.nodes a).bytes) :
    c'.content used = c.content used := List.flatMap_congr h

theorem content_modify (u₁ : List Nat) (h : (u₁ ++ a :: u₂).Nodup) :
    (c.modify a f).content (u₁ ++ a :: u₂) =
      c.content u₁ ++ (f (c.nodes a)).bytes ++ c.content u₂ := by
  obtain ⟨-, h₂, hdisjoint⟩ := List.nodup_append.mp h
  have h₁ : (c.modify a f).content u₁ = c.content u₁ := by
    apply content_congr
    intro b hb
    rw [nodes_modify_of_ne (hdisjoint b hb a List.mem_cons_self)]
  have h₂ : (c.modify a f).content u₂ = c.content u₂ := by
    apply content_congr
    intro b hb
    rw [nodes_modify_of_ne]
    rintro rfl
    exact (List.nodup_cons.mp h₂).1 hb
  calc (c.modify a f).content (u₁ ++ a :: u₂)
    _ = (c.modify a f).content u₁ ++ ((f (c.nodes a)).bytes ++ (c.modify a f).content u₂) := by
      simp [content]
    _ = c.content u₁ ++ (f (c.nodes a)).bytes ++ c.content u₂ := by
      rw [h₁, h₂, List.append_assoc]

/-- The nodes of a channel from `m_tail` on: full ones, `m_head`, free ones. -/
structure Layout (c : MemChannel) (full free : List Nat) : Prop where
  ring : LinkedRing c.next (full ++ c.m_head :: free)
  tail : (full ++ [c.m_head]).head? = some c.m_tail
  ids : ∀ a ∈ full ++ c.m_head :: free, a ≤ c.m_nodeCount
  count : (full ++ c.m_head :: free).length = c.m_nodeCount
  limit : c.m_nodeCount ≤ maxNodeCountPerChannel
  bounded : ∀ a ∈ full ++ c.m_head :: free, (c.nodes a).Bounded
  full_status : ∀ a ∈ full, (c.nodes a).status = .FULL
  head_status : c.headNode.status = .APPENDING
  free_status : ∀ a ∈ free, (c.nodes a).status = .FREE
  free_head : ∀ a ∈ free, (c.nodes a).head = 0 ∧ (c.nodes a).tail = 0

namespace Layout

theorem mem_ring (h : a ∈ full ++ [b]) : a ∈ full ++ b :: free := by
  rcases List.mem_append.mp h with h | h
  · exact List.mem_append_left _ h
  · exact List.mem_append_right _ (by simp_all)

theorem head_not_mem (h : c.Layout full free) : c.m_head ∉ full ∧ c.m_head ∉ free := by
  obtain ⟨-, hback, hdisjoint⟩ := List.nodup_append.mp h.ring.nodup
  constructor
  · intro hmem
    exact hdisjoint _ hmem _ List.mem_cons_self rfl
  · exact (List.nodup_cons.mp hback).1

theorem nodup_used (h : c.Layout full free) : (full ++ [c.m_head]).Nodup := by
  obtain ⟨hfull, -, -⟩ := List.nodup_append.mp h.ring.nodup
  rw [← List.concat_eq_append]
  exact hfull.concat h.head_not_mem.1

theorem used_eq (h : c.Layout full free) : ∃ rest, full ++ [c.m_head] = c.m_tail :: rest := by
  obtain ⟨rest, hrest⟩ := List.head?_eq_some_iff.mp h.tail
  exact ⟨rest, hrest⟩

theorem tail_mem (h : c.Layout full free) : c.m_tail ∈ full ++ [c.m_head] :=
  List.mem_of_head? h.tail

theorem bounded_head (h : c.Layout full free) : c.headNode.Bounded := h.bounded _ (by simp)

theorem bounded_tail (h : c.Layout full free) : c.tailNode.Bounded := h.bounded _ (mem_ring h.tail_mem)

theorem tail_status (h : c.Layout full free) :
    c.tailNode.status = .FULL ∧ c.m_tail ∈ full ∨ c.tailNode.status = .APPENDING := by
  rcases List.mem_append.mp h.tail_mem with hfull | hhead
  · exact .inl ⟨h.full_status _ hfull, hfull⟩
  · right
    rw [tailNode, List.mem_singleton.mp hhead]
    exact h.head_status

/-- A node in use may change its bytes. -/
theorem modify (h : c.Layout full free) (ha : a ∈ full ++ [c.m_head])
    (hnext : (f (c.nodes a)).next = (c.nodes a).next)
    (hstatus : (f (c.nodes a)).status = (c.nodes a).status) (hf : (f (c.nodes a)).Bounded) :
    (c.modify a f).Layout full free := by
  have hstatus' : ∀ b, ((c.modify a f).nodes b).status = (c.nodes b).status := by
    intro b
    by_cases hb : b = a
    · subst hb
      rw [nodes_modify_self, hstatus]
    · rw [nodes_modify_of_ne hb]
  have hfree : ∀ b ∈ free, b ≠ a := by
    rintro b hb rfl
    have hnodup := h.ring.nodup
    rcases List.mem_append.mp ha with hfull | hhead
    · exact (List.nodup_append.mp hnodup).2.2 _ hfull _ (List.mem_cons_of_mem _ hb) rfl
    · rw [List.mem_singleton.mp hhead] at hb
      exact h.head_not_mem.2 hb
  constructor
  case ring =>
    rw [next_modify hnext]
    exact h.ring
  case tail => exact h.tail
  case ids => exact h.ids
  case count => exact h.count
  case limit => exact h.limit
  case bounded =>
    intro b hb
    by_cases hba : b = a
    · subst hba
      rwa [nodes_modify_self]
    · rw [nodes_modify_of_ne hba]
      exact h.bounded b hb
  case full_status =>
    intro b hb
    rw [hstatus']
    exact h.full_status b hb
  case head_status =>
    rw [headNode, hstatus']
    exact h.head_status
  case free_status =>
    intro b hb
    rw [hstatus']
    exact h.free_status b hb
  case free_head =>
    intro b hb
    rw [nodes_modify_of_ne (hfree b hb)]
    exact h.free_head b hb

/-- The full node at the tail becomes the last of the free ones. -/
theorem leaveTail {rest : List Nat} (h : c.Layout (c.m_tail :: rest) free)
    (hold : c'.nodes c.m_tail = { c.tailNode with head := 0, tail := 0, status := .FREE })
    (hother : ∀ a, a ≠ c.m_tail → c'.nodes a = c.nodes a) (hm_head : c'.m_head = c.m_head)
    (hm_nodeCount : c'.m_nodeCount = c.m_nodeCount) (hm_tail : c'.m_tail = c.next c.m_tail) :
    c'.Layout rest (free ++ [c.m_tail]) := by
  -- the links stay; the ring is only read from the next node on
  have hnext : c'.next = c.next := by
    funext a
    rcases eq_or_ne a c.m_tail with rfl | ha
    · simp [next, hold, tailNode]
    · simp [next, hother a ha]
  have hring := h.ring
  have hnotin : c.m_tail ∉ rest ++ c.m_head :: free := (List.nodup_cons.mp hring.nodup).1
  have hperm : (rest ++ c.m_head :: (free ++ [c.m_tail])).Perm
      (c.m_tail :: (rest ++ c.m_head :: free)) := by
    have h := List.perm_append_singleton c.m_tail (rest ++ c.m_head :: free)
    rwa [List.append_assoc] at h
  constructor
  case ring =>
    have hrotate : LinkedRing c.next (rest ++ c.m_head :: free ++ [c.m_tail]) := hring.rotate
    rw [List.append_assoc] at hrotate
    rwa [hnext, hm_head]
  case tail =>
    rw [hm_head, hm_tail]
    cases rest with
    | nil => exact congrArg some (hring.next_eq []).symm
    | cons b rest => exact congrArg some (hring.next_eq []).symm
  case ids =>
    intro a ha
    rw [hm_nodeCount]
    rw [hm_head] at ha
    exact h.ids a (hperm.mem_iff.mp ha)
  case count =>
    rw [hm_head, hperm.length_eq, hm_nodeCount]
    exact h.count
  case limit =>
    rw [hm_nodeCount]
    exact h.limit
  -- the node left behind is empty, the others are untouched
  case bounded =>
    intro a ha
    rw [hm_head] at ha
    rcases eq_or_ne a c.m_tail with rfl | hne
    · rw [hold]
      exact ⟨le_rfl, Nat.zero_le _, h.bounded_tail.length_buf⟩
    · rw [hother a hne]
      exact h.bounded a (hperm.mem_iff.mp ha)
  case full_status =>
    intro a ha
    rw [hother a fun heq => hnotin (heq ▸ List.mem_append_left _ ha)]
    exact h.full_status a (List.mem_cons_of_mem _ ha)
  case head_status =>
    rw [headNode, hm_head, hother _ fun heq => hnotin (by simp [heq])]
    exact h.head_status
  case free_status =>
    intro a ha
    rcases List.mem_append.mp ha with ha | ha
    · rw [hother a fun heq => hnotin (by simp [← heq, ha])]
      exact h.free_status a ha
    · rw [List.mem_singleton.mp ha, hold]
  case free_head =>
    intro a ha
    rcases List.mem_append.mp ha with ha | ha
    · rw [hother a fun heq => hnotin (by simp [← heq, ha])]
      exact h.free_head a ha
    · rw [List.mem_singleton.mp ha, hold]
      exact ⟨rfl, rfl⟩

end Layout

/-- The channel holds these bytes, and has so many full nodes. -/
def Represents (c : MemChannel) (n : Nat) (l : List UInt8) : Prop :=
  ∃ full free, c.Layout full free ∧ full.length = n ∧ c.content (full ++ [c.m_head]) = l

private theorem new_layout : new.Layout [] [] := by
  constructor
  case ring => exact .single rfl
  case bounded =>
    intro a _
    exact ⟨le_rfl, Nat.zero_le _, List.length_replicate⟩
  all_goals simp [new, headNode, allocNode, maxNodeCountPerChannel]

theorem new_represents : new.Represents 0 [] := ⟨[], [], new_layout, rfl, rfl⟩

namespace Represents

theorem copyIn (h : c.Represents n l) (hroom : data.length ≤ memNodeSize - c.headNode.head) :
    (c.copyIn data).Represents n (l ++ data) := by
  obtain ⟨full, free, hlayout, hlen, hcontent⟩ := h
  obtain ⟨hbounded, hbytes⟩ := hlayout.bounded_head.copyIn hroom
  refine ⟨full, free, hlayout.modify (by simp) rfl rfl hbounded, hlen, ?_⟩
  calc (c.copyIn data).content (full ++ [c.m_head])
    _ = c.content full ++ (c.headNode.bytes ++ data) ++ c.content [] := by
      rw [MemChannel.copyIn, content_modify full hlayout.nodup_used]
      exact congrArg (fun bytes => c.content full ++ bytes ++ c.content []) hbytes
    _ = c.content (full ++ [c.m_head]) ++ data := by simp [content, headNode]
    _ = l ++ data := by rw [hcontent]

theorem copyOut (h : c.Represents n l) (hk : k ≤ c.tailNode.head - c.tailNode.tail) :
    ∃ l', l = (c.copyOut k).1 ++ l' ∧ (c.copyOut k).1.length = k ∧
      (c.copyOut k).2.Represents n l' := by
  obtain ⟨full, free, hlayout, hlen, rfl⟩ := h
  obtain ⟨hbounded, hbytes, hlength⟩ := hlayout.bounded_tail.advance hk
  have hlayout' : (c.copyOut k).2.Layout full free :=
    hlayout.modify (f := fun n => n.advance k) hlayout.tail_mem rfl rfl hbounded
  refine ⟨_, ?_, hlength, full, free, hlayout', hlen, rfl⟩
  obtain ⟨rest, hrest⟩ := hlayout.used_eq
  have hnodup := hlayout.nodup_used
  rw [hrest] at hnodup
  have hcontent : (c.copyOut k).2.content (c.m_tail :: rest) =
      (c.tailNode.advance k).bytes ++ c.content rest :=
    content_modify (f := fun n => n.advance k) [] hnodup
  calc c.content (full ++ [c.m_head])
    _ = c.tailNode.bytes ++ c.content rest := by
      rw [hrest]
      rfl
    _ = (c.copyOut k).1 ++ (c.copyOut k).2.content (c.m_tail :: rest) := by
      rw [hbytes, List.append_assoc]
      rw [hcontent]
      rfl
    _ = (c.copyOut k).1 ++ (c.copyOut k).2.content (full ++ [(c.copyOut k).2.m_head]) := by
      rw [← hrest]
      rfl

/-- The next node becomes the head, and the old head is full. -/
theorem shift (free' : List Nat) (h : c.Layout full free)
    (hring : LinkedRing c'.next (full ++ [c.m_head] ++ c'.m_head :: free'))
    (htail : c'.m_tail = c.m_tail)
    (hids : ∀ a ∈ full ++ [c.m_head] ++ c'.m_head :: free', a ≤ c'.m_nodeCount)
    (hcount : (full ++ [c.m_head] ++ c'.m_head :: free').length = c'.m_nodeCount)
    (hlimit : c'.m_nodeCount ≤ maxNodeCountPerChannel)
    (hfull : ∃ x, c'.nodes c.m_head = { c.headNode with status := .FULL, next := x })
    (hhead : c'.headNode.head = 0 ∧ c'.headNode.tail = 0 ∧ c'.headNode.buf.length = memNodeSize ∧
      c'.headNode.status = .APPENDING)
    (hother : ∀ a ∈ full ++ free', c'.nodes a = c.nodes a) (hfree : ∀ a ∈ free', a ∈ free) :
    c'.Represents (full.length + 1) (c.content (full ++ [c.m_head])) ∧ c'.headNode.head = 0 := by
  obtain ⟨x, hx⟩ := hfull
  obtain ⟨h0, htail0, hbuf, hstatus⟩ := hhead
  refine ⟨⟨full ++ [c.m_head], free', ?_, by simp, ?_⟩, h0⟩
  · constructor
    case ring => exact hring
    case tail =>
      rw [List.head?_append, h.tail, htail]
      rfl
    case ids => exact hids
    case count => exact hcount
    case limit => exact hlimit
    -- the full nodes, the old head, the new head, the free nodes
    case bounded =>
      intro a ha
      simp only [List.append_assoc, List.singleton_append, List.mem_append, List.mem_cons] at ha
      rcases ha with ha | rfl | rfl | ha
      · rw [hother a (List.mem_append_left _ ha)]
        exact h.bounded a (List.mem_append_left _ ha)
      · rw [hx]
        exact ⟨h.bounded_head.tail_le, h.bounded_head.head_le, h.bounded_head.length_buf⟩
      · exact ⟨htail0.trans_le (Nat.zero_le _), h0.trans_le (Nat.zero_le _), hbuf⟩
      · rw [hother a (List.mem_append_right _ ha)]
        exact h.bounded a (List.mem_append_right _ (List.mem_cons_of_mem _ (hfree a ha)))
    case full_status =>
      intro a ha
      rcases List.mem_append.mp ha with ha | ha
      · rw [hother a (List.mem_append_left _ ha)]
        exact h.full_status a ha
      · rw [List.mem_singleton.mp ha, hx]
    case head_status => exact hstatus
    case free_status =>
      intro a ha
      rw [hother a (List.mem_append_right _ ha)]
      exact h.free_status a (hfree a ha)
    case free_head =>
      intro a ha
      rw [hother a (List.mem_append_right _ ha)]
      exact h.free_head a (hfree a ha)
  -- the new head is empty, so the content is that of the same nodes as before
  · have hempty : c'.headNode.bytes = [] := MemNode.bytes_eq_nil (htail0.trans h0.symm)
    have hsame : c'.content full = c.content full := by
      apply content_congr
      intro a ha
      rw [hother a (List.mem_append_left _ ha)]
    have hlast : c'.content [c.m_head] = c.content [c.m_head] := by
      simp only [content, List.flatMap_cons, List.flatMap_nil, hx]
      rfl
    calc c'.content (full ++ [c.m_head] ++ [c'.m_head])
      _ = c'.content full ++ c'.content [c.m_head] ++ c'.headNode.bytes := by
        simp [content, headNode]
      _ = c.content full ++ c.content [c.m_head] := by rw [hempty, hsame, hlast, List.append_nil]
      _ = c.content (full ++ [c.m_head]) := by simp [content]

/-- The next node is free and becomes the head. -/
theorem updateHeadNode_move (outtimeMs : Int) (h : c.Represents n l)
    (hnext : (c.nodes c.headNode.next).status = .FREE) :
    ∃ c', c.updateHeadNode outtimeMs = some (c', outtimeMs) ∧ c'.Represents (n + 1) l ∧
      c'.headNode.head = 0 := by
  obtain ⟨full, free, hlayout, rfl, rfl⟩ := h
  rw [updateHeadNode, if_neg (not_not_intro hnext)]
  refine ⟨_, rfl, ?_⟩
  cases free with
  | nil =>
    -- the ring is closed: behind the head node is the tail node, which is in use
    have htail : c.headNode.next = c.m_tail := hlayout.ring.next_last hlayout.tail
    have := hlayout.tail_status
    simp_all [tailNode]
  | cons b free =>
    have hb : c.headNode.next = b := hlayout.ring.next_eq full
    rw [hb]
    obtain ⟨-, hnodup, hdisjoint⟩ := List.nodup_append.mp hlayout.ring.nodup
    obtain ⟨hhead, hnodup⟩ := List.nodup_cons.mp hnodup
    have hne : b ≠ c.m_head := fun hb => hhead (hb ▸ List.mem_cons_self)
    have hbounded := hlayout.bounded b (by simp)
    obtain ⟨hbhead, hbtail⟩ := hlayout.free_head b List.mem_cons_self
    apply shift free hlayout
    case hring =>
      rw [next_modify (by rfl), next_modify (by rfl), List.append_assoc]
      exact hlayout.ring
    case htail => rfl
    case hids =>
      rw [List.append_assoc]
      exact hlayout.ids
    case hcount =>
      rw [List.append_assoc]
      exact hlayout.count
    case hlimit => exact hlayout.limit
    case hfull =>
      refine ⟨c.headNode.next, ?_⟩
      rw [nodes_modify_self, nodes_modify_of_ne hne.symm]
      rfl
    case hhead =>
      simp only [headNode, modify_m_head, nodes_modify_of_ne hne, nodes_modify_self]
      exact ⟨hbhead, hbtail, hbounded.length_buf, trivial⟩
    case hother =>
      intro a ha
      have hab : a ≠ c.m_head ∧ a ≠ b := by
        rcases List.mem_append.mp ha with ha | ha
        · exact ⟨hdisjoint a ha _ (by simp), hdisjoint a ha _ (by simp)⟩
        · constructor
          · rintro rfl
            exact hhead (List.mem_cons_of_mem _ ha)
          · rintro rfl
            exact (List.nodup_cons.mp hnodup).1 ha
      rw [nodes_modify_of_ne hab.1, nodes_modify_of_ne hab.2]
    case hfree => exact fun a ha => List.mem_cons_of_mem _ ha

/-- The next node is not free, and a new one becomes the head. -/
theorem updateHeadNode_add (outtimeMs : Int) (h : c.Represents n l)
    (hnext : (c.nodes c.headNode.next).status ≠ .FREE)
    (hcount : c.m_nodeCount < maxNodeCountPerChannel) :
    ∃ c', c.updateHeadNode outtimeMs = some (c', outtimeMs) ∧ c'.Represents (n + 1) l ∧
      c'.headNode.head = 0 := by
  obtain ⟨full, free, hlayout, rfl, rfl⟩ := h
  have hfresh : c.m_nodeCount + 1 ∉ full ++ c.m_head :: free := by
    intro hmem
    have := hlayout.ids _ hmem
    omega
  have hne : c.m_nodeCount + 1 ≠ c.m_head := fun h => hfresh (by simp [h])
  rw [updateHeadNode, if_pos hnext, tryAddNode, if_pos hcount]
  refine ⟨_, rfl, ?_⟩
  generalize hc' : MemChannel.modify _ _ _ = c'
  have hm_head : c'.m_head = c.m_nodeCount + 1 := by
    rw [← hc']
    rfl
  have hm_nodeCount : c'.m_nodeCount = c.m_nodeCount + 1 := by
    rw [← hc']
    rfl
  -- the new node and the old head node are changed, all others are as they were
  have hnew : c'.nodes (c.m_nodeCount + 1) = { allocNode with next := c.headNode.next } := by
    simp [← hc', modify, hne, hne.symm, headNode]
  have hold : c'.nodes c.m_head =
      { c.headNode with status := .FULL, next := c.m_nodeCount + 1 } := by
    simp [← hc', modify, hne.symm, headNode]
  have hother : ∀ a, a ≠ c.m_nodeCount + 1 → a ≠ c.m_head → c'.nodes a = c.nodes a := by
    intro a hnode hhead
    simp [← hc', modify, hnode, hhead]
  apply shift free hlayout
  case hring =>
    have hnexts : c'.next = Function.update (Function.update c.next (c.m_nodeCount + 1)
        (c.next c.m_head)) c.m_head (c.m_nodeCount + 1) := by
      funext a
      rcases eq_or_ne a c.m_head with rfl | hhead
      · simp [next, hold]
      · rcases eq_or_ne a (c.m_nodeCount + 1) with rfl | hnode
        · simp [next, hnew, hne, headNode]
        · simp [next, hother a hnode hhead, hnode, hhead]
    rw [hm_head, List.append_assoc, hnexts]
    exact hlayout.ring.insert hfresh
  case htail =>
    rw [← hc']
    rfl
  case hids =>
    intro a ha
    rw [List.append_assoc, List.mem_append] at ha
    rw [hm_nodeCount]
    rcases ha with ha | ha
    · exact Nat.le_succ_of_le (hlayout.ids a (List.mem_append_left _ ha))
    · rcases List.mem_cons.mp ha with rfl | ha
      · exact Nat.le_succ_of_le (hlayout.ids _ (by simp))
      · rcases List.mem_cons.mp ha with rfl | ha
        · exact hm_head.le
        · exact Nat.le_succ_of_le (hlayout.ids a (by simp [ha]))
  case hcount =>
    have := hlayout.count
    simp only [List.length_append, List.length_cons, List.length_nil, hm_nodeCount] at this ⊢
    omega
  case hlimit =>
    rw [hm_nodeCount]
    exact hcount
  case hfull => exact ⟨_, hold⟩
  case hhead =>
    rw [headNode, hm_head, hnew]
    exact ⟨rfl, rfl, List.length_replicate, rfl⟩
  case hother =>
    intro a ha
    have hmem : a ∈ full ++ c.m_head :: free := by
      rcases List.mem_append.mp ha with ha | ha <;> simp [ha]
    apply hother a
    · rintro rfl
      exact hfresh hmem
    · rintro rfl
      rcases List.mem_append.mp ha with ha | ha
      · exact hlayout.head_not_mem.1 ha
      · exact hlayout.head_not_mem.2 ha
  case hfree => exact fun a ha => ha

theorem updateHeadNode_wait (hnext : (c.nodes c.headNode.next).status ≠ .FREE)
    (hcount : ¬ c.m_nodeCount < maxNodeCountPerChannel) (outtimeMs : Int) :
    c.updateHeadNode outtimeMs = none := by
  rw [MemChannel.updateHeadNode, if_pos hnext, tryAddNode, if_neg hcount]
  by_cases hover : outtimeMs ≤ 0
  · exact if_pos hover
  · rw [if_neg hover]
    exact updateHeadNode_wait hnext hcount (outtimeMs - 100)
termination_by outtimeMs.toNat

theorem updateHeadNode (h : c.Represents n l) (hc' : c.updateHeadNode outtimeMs = some (c', outtimeMs')) :
    c'.Represents (n + 1) l ∧ c'.headNode.head = 0 := by
  by_cases hnext : (c.nodes c.headNode.next).status = .FREE
  · obtain ⟨c₁, hc₁, hrep⟩ := h.updateHeadNode_move outtimeMs hnext
    rw [hc₁] at hc'
    cases hc'
    exact hrep
  · by_cases hcount : c.m_nodeCount < maxNodeCountPerChannel
    · obtain ⟨c₁, hc₁, hrep⟩ := h.updateHeadNode_add outtimeMs hnext hcount
      rw [hc₁] at hc'
      cases hc'
      exact hrep
    · rw [updateHeadNode_wait hnext hcount] at hc'
      cases hc'

theorem copyIn_min (data : List UInt8) (h : c.Represents n l) :
    (c.copyIn (data.take (min (memNodeSize - c.headNode.head) data.length))).Represents n
      (l ++ data.take (min (memNodeSize - c.headNode.head) data.length)) := by
  apply h.copyIn
  rw [List.length_take]
  omega

theorem sendLoop (h : c.Represents n l) {sendSize sent : Nat}
    (hsend : c.sendLoop fuel data outtimeMs sendSize = some (c', sent)) :
    ∃ k n', sent = sendSize + k ∧ c'.Represents n' (l ++ data.take k) := by
  induction fuel generalizing c data outtimeMs sendSize n l with
  | zero => cases hsend
  | succ fuel ih =>
    simp only [MemChannel.sendLoop] at hsend
    have hcopy := h.copyIn_min data
    generalize min (memNodeSize - c.headNode.head) data.length = nSize at hsend hcopy
    split at hsend
    · cases hsend
      exact ⟨nSize, n, rfl, hcopy⟩
    · split at hsend
      · cases hsend
        exact ⟨nSize, n, rfl, hcopy⟩
      · next c₁ _ hupdate =>
        obtain ⟨k, n', rfl, hrep⟩ := ih (hcopy.updateHeadNode hupdate).1 hsend
        refine ⟨nSize + k, n', Nat.add_assoc .., ?_⟩
        rwa [List.append_assoc, ← List.take_add] at hrep

theorem sendLoop_isSome (data : List UInt8) (outtimeMs : Int) (sendSize : Nat)
    (h : c.Represents n l)
    (hfuel : data.length + 2 ≤ fuel ∨ c.headNode.head = 0 ∧ data.length + 1 ≤ fuel) :
    (c.sendLoop fuel data outtimeMs sendSize).isSome := by
  induction fuel generalizing c data outtimeMs sendSize n l with
  | zero => omega
  | succ fuel ih =>
    simp only [MemChannel.sendLoop]
    have hcopy := h.copyIn_min data
    have hprogress : data.length + 1 ≤ fuel ∨ 0 < min (memNodeSize - c.headNode.head) data.length ∨
        data.length = 0 := by
      simp only [memNodeSize]
      omega
    generalize min (memNodeSize - c.headNode.head) data.length = nSize at hcopy hprogress
    split
    · rfl
    · next hrest =>
      split
      · rfl
      · next c₁ _ hupdate =>
        obtain ⟨hrep, hempty⟩ := hcopy.updateHeadNode hupdate
        apply ih _ _ _ hrep
        right
        rw [List.length_drop] at hrest ⊢
        exact ⟨hempty, by omega⟩

theorem send (h : c.Represents n l) {sent : Nat}
    (hsend : c.send data outtimeMs fuel = some (c', sent)) :
    ∃ n', c'.Represents n' (l ++ data.take sent) := by
  rw [MemChannel.send] at hsend
  split at hsend
  · obtain ⟨k, n', rfl, hrep⟩ := h.sendLoop hsend
    exact ⟨n', by rwa [Nat.zero_add]⟩
  · cases hsend

private theorem send_returns (h : c.Represents n l) (hsize : data.length < 2 ^ 31) :
    ∃ fuel c' sent, c.send data outtimeMs fuel = some (c', sent) := by
  have hsome := h.sendLoop_isSome data outtimeMs 0 (.inl le_rfl)
  obtain ⟨⟨c', sent⟩, hsent⟩ := Option.isSome_iff_exists.mp hsome
  exact ⟨_, c', sent, (if_pos hsize).trans hsent⟩

private theorem copyOut_all (h : c.Represents n l)
    (hsize : min (c.tailNode.head - c.tailNode.tail) size < size) :
    (c.copyOut (min (c.tailNode.head - c.tailNode.tail) size)).2.tailNode.head =
      (c.copyOut (min (c.tailNode.head - c.tailNode.tail) size)).2.tailNode.tail := by
  obtain ⟨full, free, hlayout, -⟩ := h
  have hle := hlayout.bounded_tail.tail_le
  simp only [MemChannel.copyOut, tailNode, modify_m_tail, nodes_modify_self, MemNode.advance] at *
  omega

theorem tail_status (h : c.Represents n l) :
    c.tailNode.status = .FULL ∧ 0 < n ∨ c.tailNode.status = .APPENDING := by
  obtain ⟨full, free, hlayout, rfl, -⟩ := h
  rcases hlayout.tail_status with ⟨hstatus, hmem⟩ | hstatus
  · exact .inl ⟨hstatus, List.length_pos_of_mem hmem⟩
  · exact .inr hstatus

/-- `recv` leaves a full node that it has read to its end. -/
theorem attach (h : c.Represents n l) (hempty : c.tailNode.tail = c.tailNode.head)
    (hfull : c.tailNode.status = .FULL) :
    ∃ c' n', c.tryAttachToNextNode = some c' ∧ n = n' + 1 ∧ c'.Represents n' l := by
  obtain ⟨full, free, hlayout, rfl, rfl⟩ := h
  obtain ⟨rest, rfl⟩ : ∃ rest, full = c.m_tail :: rest := by
    cases full with
    | nil =>
      -- the tail node is the head node, which is not full
      have hstatus := hlayout.head_status
      have htail : c.m_head = c.m_tail := by simpa using hlayout.tail
      rw [headNode, htail] at hstatus
      rw [tailNode, hstatus] at hfull
      cases hfull
    | cons a rest =>
      have htail : a = c.m_tail := by simpa using hlayout.tail
      exact ⟨rest, by rw [htail]⟩
  rw [tryAttachToNextNode, if_neg (by rw [hfull]; decide), if_pos hempty]
  refine ⟨_, rest.length, rfl, rfl, ?_⟩
  generalize hc' : MemChannel.mk _ _ _ _ = c'
  have hold : c'.nodes c.m_tail = { c.tailNode with head := 0, tail := 0, status := .FREE } := by
    simp [← hc', modify, tailNode]
  have hother : ∀ a, a ≠ c.m_tail → c'.nodes a = c.nodes a := by
    intro a ha
    simp [← hc', modify, ha]
  have hm_head : c'.m_head = c.m_head := by
    rw [← hc']
    rfl
  have hm_nodeCount : c'.m_nodeCount = c.m_nodeCount := by
    rw [← hc']
    rfl
  have hm_tail : c'.m_tail = c.next c.m_tail := by simp [← hc', modify, next, tailNode]
  have hnotin : c.m_tail ∉ rest ++ c.m_head :: free := (List.nodup_cons.mp hlayout.ring.nodup).1
  refine ⟨rest, free ++ [c.m_tail],
    hlayout.leaveTail hold hother hm_head hm_nodeCount hm_tail, rfl, ?_⟩
  have hnothing : c.tailNode.bytes = [] := MemNode.bytes_eq_nil hempty
  calc c'.content (rest ++ [c'.m_head])
    _ = c.content (rest ++ [c.m_head]) := by
      rw [hm_head]
      apply content_congr
      intro a ha
      rw [hother a fun h => hnotin (h ▸ Layout.mem_ring ha)]
    _ = c.tailNode.bytes ++ c.content (rest ++ [c.m_head]) := by rw [hnothing, List.nil_append]

theorem leaveFull (h : c.Represents n l) :
    ∃ c' n', c.leaveFull = some c' ∧ c'.Represents n' l ∧ (c' = c ∧ n' = n ∨ n' < n) := by
  rw [MemChannel.leaveFull]
  split
  · next hleave =>
    obtain ⟨c', n', hc', rfl, hrep⟩ := h.attach hleave.1 hleave.2
    exact ⟨c', n', hc', hrep, .inr (Nat.lt_succ_self n')⟩
  · exact ⟨c, n, rfl, h, .inl ⟨rfl, rfl⟩⟩

theorem copyOut_min (size : Nat) (h : c.Represents n l) :
    ∃ l' c' n', l = (c.copyOut (min (c.tailNode.head - c.tailNode.tail) size)).1 ++ l' ∧
      (c.copyOut (min (c.tailNode.head - c.tailNode.tail) size)).2.leaveFull = some c' ∧
      c'.Represents n' l' ∧ n' ≤ n := by
  obtain ⟨l', hl, -, hrep⟩ := h.copyOut (Nat.min_le_left _ size)
  obtain ⟨c', n', hleave, hrep', hn⟩ := hrep.leaveFull
  refine ⟨l', c', n', hl, hleave, hrep', ?_⟩
  rcases hn with ⟨-, rfl⟩ | hn
  · exact le_rfl
  · exact hn.le

theorem recvLoop (h : c.Represents n l) (hrecv : c.recvLoop fuel size outtimeMs data = some (c', data')) :
    ∃ out n' l', data' = data ++ out ∧ l = out ++ l' ∧ c'.Represents n' l' := by
  induction fuel generalizing c size outtimeMs data n l with
  | zero => cases hrecv
  | succ fuel ih =>
    obtain ⟨l₁, c₁, n₁, rfl, hleave, hrep, -⟩ := h.copyOut_min size
    simp only [MemChannel.recvLoop, hleave, Option.bind_eq_bind, Option.bind_some] at hrecv
    generalize (c.copyOut (min (c.tailNode.head - c.tailNode.tail) size)).1 = bytes at hrecv ⊢
    -- what a further round gives out comes behind the bytes of this one
    have hround : ∀ {c₂ : MemChannel} {n₂ : Nat} {outtimeMs₂ : Int}, c₂.Represents n₂ l₁ →
        c₂.recvLoop fuel (size - min (c.tailNode.head - c.tailNode.tail) size) outtimeMs₂
          (data ++ bytes) = some (c', data') →
        ∃ out n' l', data' = data ++ out ∧ bytes ++ l₁ = out ++ l' ∧ c'.Represents n' l' := by
      intro c₂ n₂ outtimeMs₂ hrep₂ hnext
      obtain ⟨out, n', l', rfl, rfl, hrep'⟩ := ih hrep₂ hnext
      exact ⟨bytes ++ out, n', l', List.append_assoc .., (List.append_assoc ..).symm, hrep'⟩
    have hend : some (c₁, data ++ bytes) = some (c', data') →
        ∃ out n' l', data' = data ++ out ∧ bytes ++ l₁ = out ++ l' ∧ c'.Represents n' l' := by
      intro heq
      cases heq
      exact ⟨bytes, n₁, l₁, rfl, rfl, hrep⟩
    split at hrecv
    · exact hend hrecv
    · split at hrecv
      · next hempty =>
        split at hrecv
        · split at hrecv
          · exact hround hrep hrecv
          · exact hend hrecv
        · next happending =>
          rcases hrep.tail_status with ⟨hfull, -⟩ | hstatus
          · obtain ⟨c₂, n₂, hattach, -, hrep₂⟩ := hrep.attach hempty.symm hfull
            rw [hattach] at hrecv
            exact hround hrep₂ hrecv
          · exact absurd hstatus happending
      · exact hround hrep hrecv

theorem recvLoop_isSome (size : Nat) (outtimeMs : Int) (data : List UInt8)
    (h : c.Represents n l) (hfuel : n + outtimeMs.toNat < fuel) :
    (c.recvLoop fuel size outtimeMs data).isSome := by
  induction fuel generalizing c size outtimeMs data n l with
  | zero => omega
  | succ fuel ih =>
    obtain ⟨l₁, -, hlen, hrep⟩ := h.copyOut (Nat.min_le_left _ size)
    obtain ⟨c₁, n₁, hleave, hrep₁, hn₁⟩ := hrep.leaveFull
    simp only [MemChannel.recvLoop, hleave, Option.bind_eq_bind, Option.bind_some]
    split
    · rfl
    · next hsize =>
      split
      · next hempty =>
        split
        · split
          · apply ih _ _ _ hrep₁
            omega
          · rfl
        · next happending =>
          rcases hrep₁.tail_status with ⟨hfull, -⟩ | hstatus
          · obtain ⟨c₂, n₂, hattach, rfl, hrep₂⟩ := hrep₁.attach hempty.symm hfull
            rw [hattach]
            apply ih _ _ _ hrep₂
            omega
          · exact absurd hstatus happending
      · next hempty =>
        apply ih _ _ _ hrep₁
        rcases hn₁ with ⟨rfl, rfl⟩ | hn₁
        · -- the size is not reached, so the node is read to its end
          exact absurd (h.copyOut_all (Nat.sub_pos_iff_lt.mp (Nat.pos_of_ne_zero hsize))) hempty
        · omega

theorem recv (h : c.Represents n l) (hrecv : c.recv size outtimeMs fuel = some (c', data)) :
    ∃ n' l', l = data ++ l' ∧ c'.Represents n' l' := by
  rw [MemChannel.recv] at hrecv
  split at hrecv
  · obtain ⟨out, n', l', rfl, rfl, hrep⟩ := h.recvLoop hrecv
    exact ⟨n', l', rfl, hrep⟩
  · cases hrecv

theorem recv_returns (h : c.Represents n l) (hsize : size < 2 ^ 31) :
    ∃ fuel c' data, c.recv size outtimeMs fuel = some (c', data) := by
  have hsome := h.recvLoop_isSome size outtimeMs [] (Nat.lt_succ_self _)
  obtain ⟨⟨c', data⟩, hdata⟩ := Option.isSome_iff_exists.mp hsome
  exact ⟨_, c', data, (if_pos hsize).trans hdata⟩

end Represents

/-- A call that returns, with the bytes it reports as sent and the bytes it has received. -/
inductive Call : MemChannel → List UInt8 → List UInt8 → MemChannel → Prop where
  | send {c c' : MemChannel} (data : List UInt8) (outtimeMs : Int) (fuel : Nat) {sent : Nat}
      (h : c.send data outtimeMs fuel = some (c', sent)) : Call c (data.take sent) [] c'
  | recv {c c' : MemChannel} (size : Nat) (outtimeMs : Int) (fuel : Nat) {data : List UInt8}
      (h : c.recv size outtimeMs fuel = some (c', data)) : Call c [] data c'

/-- The bytes that a channel holds. -/
def Holds (c : MemChannel) (l : List UInt8) : Prop := ∃ n, c.Represents n l

theorem Call.step {i o : List UInt8} (hholds : c.Holds l) (hcall : Call c i o c') :
    ∃ l', c'.Holds l' ∧ Fifo.Step l i o l' := by
  obtain ⟨n, hrep⟩ := hholds
  cases hcall with
  | send data outtimeMs fuel h => exact ⟨_, hrep.send h, ⟨rfl⟩⟩
  | recv size outtimeMs fuel h =>
    obtain ⟨n', l', rfl, hrep'⟩ := hrep.recv h
    exact ⟨l', ⟨n', hrep'⟩, ⟨List.append_nil _⟩⟩

/-- Over any calls on a new channel, what was received is a prefix of what was sent, the channel has
    at most `maxNodeCountPerChannel` nodes, and every further call of a size that `int32_t` holds
    returns. -/
theorem fifo_of_run {sent received : List UInt8} (hrun : Fifo.Run Call new sent received c) :
    received <+: sent ∧
      (∃ nodes, LinkedRing c.next nodes ∧ c.m_head ∈ nodes ∧ c.m_tail ∈ nodes ∧
        nodes.length = c.m_nodeCount ∧ c.m_nodeCount ≤ maxNodeCountPerChannel) ∧
      (∀ (data : List UInt8) (outtimeMs : Int), data.length < 2 ^ 31 →
        ∃ fuel c' sent, c.send data outtimeMs fuel = some (c', sent)) ∧
      (∀ (size : Nat) (outtimeMs : Int), size < 2 ^ 31 →
        ∃ fuel c' data, c.recv size outtimeMs fuel = some (c', data)) := by
  obtain ⟨l, ⟨n, hrep⟩, hlaw⟩ := hrun.conserved ⟨0, new_represents⟩ fun _ _ _ _ _ => Call.step
  refine ⟨hlaw.isPrefix, ?_, fun _ _ => hrep.send_returns, fun _ _ => hrep.recv_returns⟩
  obtain ⟨full, free, hlayout, -⟩ := hrep
  exact ⟨_, hlayout.ring, by simp, Layout.mem_ring hlayout.tail_mem, hlayout.count, hlayout.limit⟩

/-- What fills a node and two bytes more is sent, and one byte of the second node is received behind
    the first node. -/
theorem fifo_of_two_nodes : ∃ (a : List UInt8) (c : MemChannel), a.length = memNodeSize ∧
    Fifo.Run Call new (a ++ [1, 2]) (a ++ [1]) c ∧ c.m_nodeCount = 2 ∧ c.m_tail = 2 ∧
      a ++ [1] <+: a ++ [1, 2] := by
  obtain ⟨a, ha⟩ : ∃ a : List UInt8, a.length = memNodeSize :=
    ⟨List.replicate memNodeSize 0, List.length_replicate⟩
  have hsmall : 2 ≤ memNodeSize := by decide
  have hbound : memNodeSize + 2 < 2 ^ 31 := by decide
  obtain ⟨c₁, hsend, hcount, htail, hfirst, hsecond⟩ : ∃ c₁,
      new.send (a ++ [1, 2]) 0 2 = some (c₁, memNodeSize + 2) ∧ c₁.m_nodeCount = 2 ∧
        c₁.m_tail = 1 ∧ c₁.nodes 1 = ⟨memNodeSize, 0, .FULL, 2, a⟩ ∧
        c₁.nodes 2 = ⟨2, 0, .APPENDING, 1, 1 :: 2 :: List.replicate (memNodeSize - 2) 0⟩ := by
    simpa [send, sendLoop, ha, headNode, new, allocNode, copyIn, MemNode.copyIn, modify,
      updateHeadNode, tryAddNode, maxNodeCountPerChannel, hsmall] using hbound
  obtain ⟨c, hrecv, hcount', htail'⟩ : ∃ c,
      c₁.recv (memNodeSize + 1) 0 2 = some (c, a ++ [1]) ∧ c.m_nodeCount = 2 ∧ c.m_tail = 2 := by
    have hrecv : memNodeSize + 1 < 2147483648 := by decide
    simp [recv, recvLoop, tailNode, htail, hfirst, hsecond, copyOut, modify, MemNode.advance,
      leaveFull, tryAttachToNextNode, hrecv, hcount, List.slice, ha]
  have hrun := (Fifo.Run.nil.snoc (Call.send _ _ _ hsend)).snoc (Call.recv _ _ _ hrecv)
  rw [List.take_of_length_le (by simp [ha])] at hrun
  simp only [List.nil_append, List.append_nil] at hrun
  exact ⟨a, c, ha, hrun, hcount', htail', (fifo_of_run hrun).1⟩

end MemChannel

end DBStream.Native.CLUSTER
