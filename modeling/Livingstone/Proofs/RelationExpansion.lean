import Livingstone.Jmpl.Relation

/-! An identifier in the body of a relation is to mean the same in an equality and in the call of
another relation. The two resolvers agree on formal parameters, but for the first one that has no
argument, and on the attributes of a component type, and not on `this` and on values. -/

namespace Livingstone
namespace Jmpl

variable {r : Relation} {values : List String} {owner : Option String} {identifier : String}

/-- Other than a value, which may be one of another type. -/
def RelationParent.isAttribute (identifier : String) : RelationParent → Bool
  | .attributeType values attributes => identifier ∉ values ∧ identBase identifier ∈ attributes
  | .componentType type => (type.findAttributeDeclaration (identBase identifier)).isSome
  | .other => false

def resolve (r : Relation) (values : List String) (owner : Option String) (identifier : String) :
    Except JmplException (Option String) :=
  if identBase identifier ∈ r.arguments then
    match values[r.arguments.idxOf (identBase identifier)]? with
    | some value => .ok (some (value ++ identExtension identifier))
    | none => .error tooFewArguments
  else if identifier = "this" then .ok owner
  else if r.parent.isAttribute identifier then .ok (some (prefixed owner identifier))
  else .ok (some identifier)

/-- The identifier becomes what it stands for in an equality and in a call. -/
def ResolvedAlike (r : Relation) (values : List String) (owner : Option String)
    (identifier : String) : Prop :=
  EqualityExpression.substituteArgument identifier r values owner =
      resolve r values owner identifier ∧
    (RelationExpression.substituteVariable identifier r.arguments values owner).map some =
      resolve r values owner identifier

def RelationParent.Looked (base : String) : RelationParent → Prop
  | .attributeType _ _ => True
  | .componentType type => base = "" ∨ ∀ a, type.findAttributeDeclaration base = some a →
      ∃ k, a.compileType = .ok (some k)
  | .other => False

def RelationParent.Declared (base : String) : RelationParent → Prop
  | .componentType type => ∃ a, type.findAttributeDeclaration base = some a ∧
      (base = "" ∨ ∃ k, a.compileType = .ok (some k))
  | _ => False

/-- A formal parameter is none, or not the first one without an argument. Any other identifier is
not `this`, and with an owner it is an attribute of a component type. -/
def Alike (r : Relation) (values : List String) (owner : Option String) (identifier : String) :
    Prop :=
  if identBase identifier ∈ r.arguments then
    if identifier = "this" then ∃ value,
      values[r.arguments.idxOf (identBase identifier)]? = some value ∧ owner = some value
    else r.arguments.idxOf (identBase identifier) ≠ values.length
  else identifier ≠ "this" ∧
    match owner with
    | none => r.parent.Looked (identBase identifier)
    | some _ => r.parent.Declared (identBase identifier)

theorem prefixed_ne (o identifier : String) : prefixed (some o) identifier ≠ identifier := by
  intro h
  have hlength := congrArg String.length h
  simp [prefixed] at hlength

theorem elementAt_of_lt {index : ℕ} (h : index < values.length) :
    elementAt values index = .ok values[index] := by
  simp [elementAt, h]

theorem elementAt_of_ge {index : ℕ} (h : values.length ≤ index) :
    elementAt values index = .error (.arrayIndexOutOfBounds index values.length) := by
  simp [elementAt, h]

section
variable (h : identBase identifier ∈ r.arguments)
include h

theorem resolve_formal : resolve r values owner identifier =
    match values[r.arguments.idxOf (identBase identifier)]? with
    | some value => .ok (some (value ++ identExtension identifier))
    | none => .error tooFewArguments := if_pos h

theorem substituteVariable_formal :
    (RelationExpression.substituteVariable identifier r.arguments values owner).map some =
      resolve r values owner identifier := by
  have hlt := List.idxOf_lt_length_iff.mpr h
  rw [resolve_formal h]
  unfold RelationExpression.substituteVariable
  dsimp only
  rw [if_neg hlt.ne]
  by_cases hvalues : r.arguments.idxOf (identBase identifier) < values.length
  · rw [if_neg (not_le.mpr hvalues), elementAt_of_lt hvalues, List.getElem?_eq_getElem hvalues]
    rfl
  · rw [if_pos (not_lt.mp hvalues), List.getElem?_eq_none (not_lt.mp hvalues)]
    rfl

theorem substituteArgument_formal (hthis : identifier ≠ "this") :
    EqualityExpression.substituteArgument identifier r values owner =
        resolve r values owner identifier ↔
      r.arguments.idxOf (identBase identifier) ≠ values.length := by
  have hlt := List.idxOf_lt_length_iff.mpr h
  rw [resolve_formal h]
  unfold EqualityExpression.substituteArgument
  rw [if_neg hthis]
  dsimp only
  rw [if_pos hlt]
  rcases lt_trichotomy (r.arguments.idxOf (identBase identifier)) values.length with hv | hv | hv
  · rw [if_neg hv.not_gt, elementAt_of_lt hv, List.getElem?_eq_getElem hv]
    exact iff_of_true rfl hv.ne
  · rw [if_neg hv.not_gt, elementAt_of_ge hv.ge, List.getElem?_eq_none hv.ge]
    refine iff_of_false (fun heq => ?_) (not_not.mpr hv)
    cases heq
  · rw [if_pos hv, List.getElem?_eq_none hv.le]
    exact iff_of_true rfl hv.ne'

theorem resolvedAlike_formal_this (hthis : identifier = "this") :
    ResolvedAlike r values owner identifier ↔ ∃ value,
      values[r.arguments.idxOf (identBase identifier)]? = some value ∧ owner = some value := by
  have hempty : identExtension identifier = "" := by
    subst hthis
    decide
  unfold ResolvedAlike
  rw [and_iff_left (substituteVariable_formal h), resolve_formal h, hempty]
  unfold EqualityExpression.substituteArgument
  rw [if_pos hthis]
  cases values[r.arguments.idxOf (identBase identifier)]? with
  | none => simp
  | some value => simp

end

section
variable (h : identBase identifier ∉ r.arguments)
include h

theorem substituteVariable_other :
    RelationExpression.substituteVariable identifier r.arguments values owner =
      .ok (prefixed owner identifier) :=
  if_pos (List.idxOf_eq_length_iff.mpr h)

theorem not_resolvedAlike_this (hthis : identifier = "this") :
    ¬ ResolvedAlike r values owner identifier := by
  rintro ⟨-, hcall⟩
  rw [substituteVariable_other h, resolve, if_neg h, if_pos hthis] at hcall
  have howner : some (prefixed owner identifier) = owner := Except.ok.inj hcall
  cases owner with
  | none => cases howner
  | some o =>
    have hlength := congrArg String.length (Option.some.inj howner)
    have hdot : ".".length = 1 := by decide
    simp only [prefixed, String.length_append] at hlength
    omega

theorem resolve_other (hthis : identifier ≠ "this") : resolve r values owner identifier =
    .ok (some (if r.parent.isAttribute identifier then prefixed owner identifier
      else identifier)) := by
  unfold resolve
  rw [if_neg h, if_neg hthis]
  split <;> rfl

theorem substituteArgument_other (hthis : identifier ≠ "this") :
    EqualityExpression.substituteArgument identifier r values owner =
      match r.parent with
      | .attributeType _ _ => .ok (some identifier)
      | .componentType type => do
        if ← EqualityExpression.needsPrefix r.name type (identBase identifier)
          then return some (prefixed owner identifier)
          else return some identifier
      | .other => .error (.compilerError ("compiler error: relation '" ++ r.name ++
          "' has no valid parent")) := by
  have hlt : ¬ r.arguments.idxOf (identBase identifier) < r.arguments.length := by
    rw [List.idxOf_lt_length_iff]
    exact h
  unfold EqualityExpression.substituteArgument
  rw [if_neg hthis]
  exact if_neg hlt

end

section
variable (name : String) {type : ComponentType} {base : String} {a : AttributeDeclaration}

theorem needsPrefix_empty (type : ComponentType) (hbase : base = "") :
    EqualityExpression.needsPrefix name type base = .ok true := if_pos hbase

theorem needsPrefix_declared {k : TypeType} (ha : type.findAttributeDeclaration base = some a)
    (hk : a.compileType = .ok (some k)) :
    EqualityExpression.needsPrefix name type base = .ok true := by
  unfold EqualityExpression.needsPrefix
  simp only [ha, hk, ite_self]

theorem needsPrefix_undeclared (hbase : base ≠ "") (ha : type.findAttributeDeclaration base = none) :
    EqualityExpression.needsPrefix name type base = .ok false := by
  unfold EqualityExpression.needsPrefix
  simp only [if_neg hbase, ha]

theorem needsPrefix_fails (hbase : base ≠ "") (ha : type.findAttributeDeclaration base = some a)
    (hk : ∀ k, a.compileType ≠ .ok (some k)) :
    ∃ e, EqualityExpression.needsPrefix name type base = .error e := by
  unfold EqualityExpression.needsPrefix
  rw [if_neg hbase, ha]
  cases hc : a.compileType with
  | error e => exact ⟨e, by simp only [hc]⟩
  | ok k =>
    cases k with
    | none => exact ⟨_, by simp only [hc]; rfl⟩
    | some k => exact absurd hc (hk k)

end

theorem resolvedAlike_unowned (h : identBase identifier ∉ r.arguments)
    (hthis : identifier ≠ "this") :
    ResolvedAlike r values none identifier ↔ r.parent.Looked (identBase identifier) := by
  have hresolve : resolve r values none identifier = .ok (some identifier) := by
    rw [resolve_other h hthis]
    simp [prefixed]
  unfold ResolvedAlike
  rw [substituteVariable_other h, hresolve, substituteArgument_other h hthis]
  refine (and_iff_left rfl).trans ?_
  cases r.parent with
  | attributeType vs as => exact iff_of_true rfl trivial
  | other => exact iff_of_false (fun heq => by cases heq) id
  | componentType type =>
    dsimp only
    by_cases hbase : identBase identifier = ""
    · rw [needsPrefix_empty r.name type hbase]
      exact iff_of_true rfl (Or.inl hbase)
    cases ha : type.findAttributeDeclaration (identBase identifier) with
    | none =>
      rw [needsPrefix_undeclared r.name hbase ha]
      exact iff_of_true rfl (Or.inr fun a ha' => by cases ha.symm.trans ha')
    | some a =>
      by_cases hk : ∃ k, a.compileType = .ok (some k)
      · obtain ⟨k, hk⟩ := hk
        rw [needsPrefix_declared r.name ha hk]
        refine iff_of_true rfl (Or.inr fun a' ha' => ?_)
        obtain rfl := Option.some.inj (ha.symm.trans ha')
        exact ⟨k, hk⟩
      · obtain ⟨e, he⟩ := needsPrefix_fails r.name hbase ha (not_exists.mp hk)
        rw [he]
        refine iff_of_false (fun heq => by cases heq) fun hlooked => hk ?_
        exact hlooked.resolve_left hbase a ha

theorem resolvedAlike_owned {o : String} (h : identBase identifier ∉ r.arguments)
    (hthis : identifier ≠ "this") : ResolvedAlike r values (some o) identifier ↔
      r.parent.Declared (identBase identifier) := by
  have hne := prefixed_ne o identifier
  unfold ResolvedAlike
  rw [substituteVariable_other h, resolve_other h hthis, substituteArgument_other h hthis]
  by_cases hattribute : r.parent.isAttribute identifier = true
  · rw [if_pos hattribute]
    refine (and_iff_left rfl).trans ?_
    cases hparent : r.parent with
    | attributeType vs as =>
      refine iff_of_false (fun heq => hne ?_) id
      exact (Option.some.inj (Except.ok.inj heq)).symm
    | other => exact iff_of_false (fun heq => by cases heq) id
    | componentType type =>
      rw [hparent] at hattribute
      obtain ⟨a, ha⟩ := Option.isSome_iff_exists.mp hattribute
      dsimp only
      by_cases hbase : identBase identifier = ""
      · rw [needsPrefix_empty r.name type hbase]
        exact iff_of_true rfl ⟨a, ha, Or.inl hbase⟩
      by_cases hk : ∃ k, a.compileType = .ok (some k)
      · obtain ⟨k, hk⟩ := hk
        rw [needsPrefix_declared r.name ha hk]
        exact iff_of_true rfl ⟨a, ha, Or.inr ⟨k, hk⟩⟩
      · obtain ⟨e, he⟩ := needsPrefix_fails r.name hbase ha (not_exists.mp hk)
        rw [he]
        refine iff_of_false (fun heq => by cases heq) fun ⟨a', ha', hdeclared⟩ => hk ?_
        obtain rfl := Option.some.inj (ha.symm.trans ha')
        exact hdeclared.resolve_left hbase
  · rw [if_neg hattribute]
    refine iff_of_false (fun hboth => hne (Option.some.inj (Except.ok.inj hboth.2)))
      fun hdeclared => hattribute ?_
    cases hparent : r.parent with
    | componentType type =>
      rw [hparent] at hdeclared
      obtain ⟨a, ha, -⟩ := hdeclared
      exact Option.isSome_iff_exists.mpr ⟨a, ha⟩
    | attributeType vs as =>
      rw [hparent] at hdeclared
      exact hdeclared.elim
    | other =>
      rw [hparent] at hdeclared
      exact hdeclared.elim

/-- When an identifier means the same in an equality and in a call. -/
theorem resolvedAlike_iff (r : Relation) (values : List String) (owner : Option String)
    (identifier : String) :
    ResolvedAlike r values owner identifier ↔ Alike r values owner identifier := by
  unfold Alike
  by_cases h : identBase identifier ∈ r.arguments
  · rw [if_pos h]
    by_cases hthis : identifier = "this"
    · rw [if_pos hthis]
      exact resolvedAlike_formal_this h hthis
    · rw [if_neg hthis]
      exact (and_iff_left (substituteVariable_formal h)).trans (substituteArgument_formal h hthis)
  · rw [if_neg h]
    by_cases hthis : identifier = "this"
    · exact iff_of_false (not_resolvedAlike_this h hthis) fun hnot => hnot.1 hthis
    · rw [and_iff_right hthis]
      cases owner with
      | none => exact resolvedAlike_unowned h hthis
      | some o => exact resolvedAlike_owned h hthis

/-- A relation with one parameter, on a component type with one attribute. -/
def turnsOn : Relation where
  name := "turnsOn"
  arguments := ["x"]
  parent := .componentType (.mk [⟨"switch", .ok (some .attributeType)⟩] [] none)

example : EqualityExpression.substituteArgument "x" turnsOn [] none =
    .error (.arrayIndexOutOfBounds 0 0) := by decide

/-- A value in a call gets an owner. -/
theorem not_resolvedAlike : ¬ ∀ (r : Relation) (values : List String) (owner : Option String)
    (identifier : String), ResolvedAlike r values owner identifier := by
  intro h
  have hon : RelationExpression.substituteVariable "on" turnsOn.arguments ["y"] (some "lamp") =
      .ok "lamp.on" := by decide
  have hspec : resolve turnsOn ["y"] (some "lamp") "on" = .ok (some "on") := by decide
  have hcall := (h turnsOn ["y"] (some "lamp") "on").2
  rw [hon, hspec] at hcall
  exact absurd hcall (by decide)

end Jmpl
end Livingstone
