import Concretion.Recovery.Rule.Function

/-!
# Members of objects and classes

- `Rule.pair`: a key and its value.
- `Rule.accessors`: a getter, a setter, or both. The two accessors of one name are members of their
  own in the text, and the key belongs to the one that is written first.
- `Rule.member`: a member, whatever it is.
-/

namespace Concretion

/-- The two sorts of accessors. -/
inductive Accessor where
  | getter
  | setter
  deriving DecidableEq, Repr, Inhabited

namespace Accessor

/-- The keyword of an accessor. -/
def keyword : Accessor → String
  | getter => "get"
  | setter => "set"

/-- The kind of node of an accessor. -/
def nodeKind : Accessor → NodeKind
  | getter => .getter
  | setter => .setter

end Accessor

namespace MemberFragment

/-- The accessors of a member, in the order of their names. -/
def accessors (member : MemberFragment) : List (FunctionFragment × Accessor) :=
  let getter := member.getter.toList.map fun function => (function, Accessor.getter)
  let setter := member.setter.toList.map fun function => (function, Accessor.setter)
  (getter ++ setter).mergeSort fun a b => a.1.name.range.start ≤ b.1.name.range.start

/-- Wherever it is sorted to, an accessor is the getter or the setter of the member. -/
theorem mem_accessors {member : MemberFragment} {written : FunctionFragment × Accessor}
    (h : written ∈ member.accessors) : written.1 ∈ member.getter ∨ written.1 ∈ member.setter := by
  rw [accessors, List.mem_mergeSort, List.mem_append] at h
  rcases h with h | h
  · obtain ⟨getter, hgetter, rfl⟩ := List.mem_map.1 h
    exact .inl (Option.mem_toList.1 hgetter)
  · obtain ⟨setter, hsetter, rfl⟩ := List.mem_map.1 h
    exact .inr (Option.mem_toList.1 hsetter)

end MemberFragment

namespace Rule

open Recover

/-- A key and its value. A single word that is both has one node. -/
def pair (member : MemberFragment) (value : Fragment) : Recover Unit := do
  let span ← rangeSpan member.range.start (max member.range.finish value.range.finish)
  if value.range == member.key.range then
    enter (.leaf (.nameValuePair none) span) member.key.build
  else
    let colon ← find .colon "NameValuePair" member.key.range.finish value.range.start
    enter (.leaf (.nameValuePair (some colon)) span) do
      key member
      value.build

/-- Where an accessor begins and ends. The one that owns the key takes the range of the member,
the other one begins at its keyword. -/
def accessorRange (member : MemberFragment) (function : FunctionFragment) (accessor : Accessor)
    (ownsKey : Bool) : Recover Range := do
  let finish := max function.range.finish function.body.range.finish
  if ownsKey then return ⟨member.range.start, max finish member.range.finish⟩
  else
    let nameStart := function.name.range.start
    let found :=
      (← source).locateLastWord "Accessor" accessor.keyword (← gapStart) nameStart
    return ⟨← settle found nameStart, finish⟩

/-- The parts that an accessor keeps of its function: the body, and the parameters of a setter. -/
def accessorParts (function : FunctionFragment) (accessor : Accessor) : Recover Unit := do
  let parts := (← functionNode function none).children.reverse
  if accessor == .setter then (parts.drop 1).head?.toList.forM attach
  parts.head?.toList.forM attach

/-- An accessor. -/
def accessor (member : MemberFragment) (function : FunctionFragment) (accessor : Accessor)
    (ownsKey : Bool) : Recover Unit := do
  let range ← accessorRange member function accessor ownsKey
  let span ← rangeSpan range.start range.finish
  enter (.leaf accessor.nodeKind span) do
    if ownsKey then key member
    else
      attach (← identifier function.name.range.start function.name.range.finish
        function.name.name)
    accessorParts function accessor

/-- Recovers the accessors of a member in their order. The first one owns the key. -/
def accessors (member : MemberFragment) : Recover Unit :=
  member.accessors.zipIdx.forM fun ((function, kind), place) =>
    accessor member function kind (place == 0)

/-- A member of an object literal or of a class. -/
def member (member : MemberFragment) : Recover Unit := do
  if member.getter.isSome || member.setter.isSome then accessors member
  else
    match member.value with
    | some (.method function) => attach (← functionNode function (some member))
    | some (.expression value) => pair member value
    | none =>
      let span ← rangeSpan member.range.start member.range.finish
      throw (.shape "NameValuePair" .memberWithoutValue (some span))

end Rule

end Concretion
