/-!
# Maps and sets in key order

A map is the list of its entries in strictly increasing key order, a set the list of its members.
The order is part of the type, so two maps with the same entries are the same value, and walking a
map always meets the keys in order.
-/
namespace BuildAnalysis

universe u v
variable {α : Type u} {β : Type v} [Ord α]

/-- A finite map whose entries are kept in strictly increasing key order. -/
structure SortedMap (α : Type u) (β : Type v) [Ord α] where
  entries : List (α × β)
  sorted : entries.Pairwise fun a b => compare a.1 b.1 = .lt
  deriving DecidableEq

namespace SortedMap

def empty : SortedMap α β := ⟨[], .nil⟩

instance : Inhabited (SortedMap α β) := ⟨empty⟩
instance : EmptyCollection (SortedMap α β) := ⟨empty⟩

/-- Places an entry by its key; an entry with an equal key is replaced. -/
def insertEntry (k : α) (v : β) : List (α × β) → List (α × β)
  | [] => [(k, v)]
  | e :: es =>
    match compare k e.1 with
    | .lt => (k, v) :: e :: es
    | .eq => (k, v) :: es
    | .gt => e :: insertEntry k v es

theorem mem_insertEntry {k : α} {v : β} {es : List (α × β)} {x : α × β}
    (h : x ∈ insertEntry k v es) : x = (k, v) ∨ x ∈ es := by
  fun_induction insertEntry k v es with
  | case1 => simpa using h
  | case2 e es _ => simpa using h
  | case3 e es _ =>
    rcases List.mem_cons.1 h with h | h
    · exact .inl h
    · exact .inr (List.mem_cons_of_mem _ h)
  | case4 e es _ ih =>
    rcases List.mem_cons.1 h with h | h
    · exact .inr (h ▸ List.mem_cons_self)
    · exact (ih h).imp id (List.mem_cons_of_mem _)

theorem pairwise_insertEntry [Std.TransOrd α] (k : α) (v : β) {es : List (α × β)}
    (h : es.Pairwise fun a b => compare a.1 b.1 = .lt) :
    (insertEntry k v es).Pairwise fun a b => compare a.1 b.1 = .lt := by
  fun_induction insertEntry k v es with
  | case1 => exact List.pairwise_singleton _ _
  | case2 e es hc =>
    refine List.pairwise_cons.2 ⟨fun x hx => ?_, h⟩
    rcases List.mem_cons.1 hx with rfl | hx
    · exact hc
    · exact Std.TransCmp.lt_trans hc ((List.pairwise_cons.1 h).1 x hx)
  | case3 e es hc =>
    obtain ⟨he, hes⟩ := List.pairwise_cons.1 h
    exact List.pairwise_cons.2 ⟨fun x hx => Std.TransCmp.lt_of_eq_of_lt hc (he x hx), hes⟩
  | case4 e es hc ih =>
    obtain ⟨he, hes⟩ := List.pairwise_cons.1 h
    refine List.pairwise_cons.2 ⟨fun x hx => ?_, ih hes⟩
    rcases mem_insertEntry hx with rfl | hx
    · exact Std.OrientedCmp.lt_of_gt hc
    · exact he x hx

def insert [Std.TransOrd α] (m : SortedMap α β) (k : α) (v : β) : SortedMap α β :=
  ⟨insertEntry k v m.entries, pairwise_insertEntry k v m.sorted⟩

def ofList [Std.TransOrd α] (es : List (α × β)) : SortedMap α β :=
  es.foldl (fun m e => m.insert e.1 e.2) empty

def get? [BEq α] (m : SortedMap α β) (k : α) : Option β := m.entries.lookup k

def contains [BEq α] (m : SortedMap α β) (k : α) : Bool := (m.get? k).isSome

def keys (m : SortedMap α β) : List α := m.entries.map Prod.fst

def size (m : SortedMap α β) : Nat := m.entries.length

def isEmpty (m : SortedMap α β) : Bool := m.entries.isEmpty

/-- The entries whose key passes the test. -/
def filterKeys (m : SortedMap α β) (p : α → Bool) : SortedMap α β :=
  ⟨m.entries.filter fun e => p e.1, m.sorted.filter _⟩

def union [Std.TransOrd α] (m other : SortedMap α β) : SortedMap α β :=
  other.entries.foldl (fun m e => m.insert e.1 e.2) m

end SortedMap

structure SortedSet (α : Type u) [Ord α] where
  members : List α
  sorted : members.Pairwise fun a b => compare a b = .lt
  deriving DecidableEq

namespace SortedSet

def empty : SortedSet α := ⟨[], .nil⟩

instance : Inhabited (SortedSet α) := ⟨empty⟩
instance : EmptyCollection (SortedSet α) := ⟨empty⟩

instance : Membership α (SortedSet α) := ⟨fun s a => a ∈ s.members⟩

instance [DecidableEq α] (a : α) (s : SortedSet α) : Decidable (a ∈ s) :=
  inferInstanceAs (Decidable (a ∈ s.members))

/-- Places a member by its order; a member that is there already stays. -/
def insertMember (a : α) : List α → List α
  | [] => [a]
  | x :: xs =>
    match compare a x with
    | .lt => a :: x :: xs
    | .eq => x :: xs
    | .gt => x :: insertMember a xs

theorem mem_insertMember {a x : α} {xs : List α} (h : x ∈ insertMember a xs) :
    x = a ∨ x ∈ xs := by
  fun_induction insertMember a xs with
  | case1 => simpa using h
  | case2 y ys _ => simpa using h
  | case3 y ys _ => exact .inr h
  | case4 y ys _ ih =>
    rcases List.mem_cons.1 h with h | h
    · exact .inr (h ▸ List.mem_cons_self)
    · exact (ih h).imp id (List.mem_cons_of_mem _)

theorem pairwise_insertMember [Std.TransOrd α] (a : α) {xs : List α}
    (h : xs.Pairwise fun a b => compare a b = .lt) :
    (insertMember a xs).Pairwise fun a b => compare a b = .lt := by
  fun_induction insertMember a xs with
  | case1 => exact List.pairwise_singleton _ _
  | case2 y ys hc =>
    refine List.pairwise_cons.2 ⟨fun x hx => ?_, h⟩
    rcases List.mem_cons.1 hx with rfl | hx
    · exact hc
    · exact Std.TransCmp.lt_trans hc ((List.pairwise_cons.1 h).1 x hx)
  | case3 y ys _ => exact h
  | case4 y ys hc ih =>
    obtain ⟨hy, hys⟩ := List.pairwise_cons.1 h
    refine List.pairwise_cons.2 ⟨fun x hx => ?_, ih hys⟩
    rcases mem_insertMember hx with rfl | hx
    · exact Std.OrientedCmp.lt_of_gt hc
    · exact hy x hx

def insert [Std.TransOrd α] (s : SortedSet α) (a : α) : SortedSet α :=
  ⟨insertMember a s.members, pairwise_insertMember a s.sorted⟩

def insertAll [Std.TransOrd α] (s : SortedSet α) (as : List α) : SortedSet α :=
  as.foldl insert s

def ofList [Std.TransOrd α] (as : List α) : SortedSet α := empty.insertAll as

def union [Std.TransOrd α] (s t : SortedSet α) : SortedSet α := s.insertAll t.members

def size (s : SortedSet α) : Nat := s.members.length

def isEmpty (s : SortedSet α) : Bool := s.members.isEmpty

def isSubset [DecidableEq α] (s t : SortedSet α) : Bool := s.members.all fun a => decide (a ∈ t)

end SortedSet
end BuildAnalysis
