import ExtensionHeader.Proofs.FileScope

/-! Which collisions are reported. In each family the first claimant of an identifier keeps it, and
every later claimant with another name is reported against it. The keys of claims are exact for this:
two claims on one identifier have one key only if they are made for one name. -/
namespace ExtensionHeader

namespace QualifiedName

def marked (path : List String) : List (Option Char) :=
  [none].intercalate (path.map fun s => s.toList.map some)

theorem map_marked (mark : Char) (path : List String) :
    (marked path).map (·.getD mark) = ((String.singleton mark).intercalate path).toList := by
  have hsegment : ∀ s : String, (s.toList.map some).map (·.getD mark) = s.toList := by
    intro s
    rw [List.map_map]
    exact List.map_id _
  rw [String.toList_intercalate, String.toList_singleton]
  unfold marked
  induction path with
  | nil => rfl
  | cons s rest ih =>
    cases rest with
    | nil =>
      rw [List.map_singleton, List.intercalate_singleton, hsegment, List.map_singleton,
        List.intercalate_singleton]
    | cons t rest =>
      simp only [List.map_cons, List.intercalate_cons_cons, List.map_append] at ih ⊢
      rw [ih, hsegment]
      rfl

theorem length_intercalate (a b : Char) (path : List String) :
    ((String.singleton a).intercalate path).toList.length =
      ((String.singleton b).intercalate path).toList.length := by
  rw [← map_marked, ← map_marked, List.length_map, List.length_map]

theorem marked_inj {p q : List String} (hp : p ≠ []) (hq : q ≠ []) (h : marked p = marked q) :
    p = q := by
  have hsplit : ∀ {path : List String}, path ≠ [] →
      (marked path).splitOn none = path.map fun s => s.toList.map some := by
    intro path hpath
    apply List.splitOn_intercalate
    · intro l hl hmark
      obtain ⟨s, -, rfl⟩ := List.mem_map.mp hl
      simp at hmark
    · exact fun hnil => hpath (List.map_eq_nil_iff.mp hnil)
  have hsegments := hsplit hp
  rw [h, hsplit hq] at hsegments
  apply List.map_injective_iff.mpr _ hsegments.symm
  intro s t hst
  exact String.toList_inj.mp (List.map_injective_iff.mpr (fun _ _ => Option.some.inj) hst)

/-- A path is told by two ways to write it that differ in the character between segments. -/
theorem eq_of_intercalate_eq {p q : List String} (hp : p ≠ []) (hq : q ≠ []) {a b : Char}
    (hab : a ≠ b)
    (ha : (String.singleton a).intercalate p = (String.singleton a).intercalate q)
    (hb : (String.singleton b).intercalate p = (String.singleton b).intercalate q) : p = q := by
  have hpairs : (marked p).map (fun x => (x.getD a, x.getD b)) =
      (marked q).map (fun x => (x.getD a, x.getD b)) := by
    rw [← List.zip_map', ← List.zip_map', map_marked, map_marked, map_marked, map_marked, ha, hb]
  apply marked_inj hp hq
  apply List.map_injective_iff.mpr _ hpairs
  rintro (_ | x) (_ | y) h
  · rfl
  · exact absurd ((Prod.mk.inj h).1.trans (Prod.mk.inj h).2.symm) hab
  · exact absurd ((Prod.mk.inj h).1.symm.trans (Prod.mk.inj h).2) hab
  · exact congrArg some (Prod.mk.inj h).1

end QualifiedName

namespace Identifier

open QualifiedName

theorem ofName_eq (q : QualifiedName) :
    ofName q = (String.singleton '_').intercalate (q.path ++ [q.name]) := by
  obtain ⟨path, name⟩ := q
  unfold ofName
  induction path with
  | nil => simp
  | cons s rest ih =>
    rw [List.cons_append, String.intercalate_cons_of_ne_nil (by simp), ← ih, List.map_cons,
      String.join_cons, String.append_assoc]
    rfl

theorem toList_display_eq (q : QualifiedName) :
    q.display.toList = (marked (q.path ++ [q.name])).map (·.getD separator) :=
  (map_marked separator _).symm

theorem toList_ofName_eq (q : QualifiedName) :
    (ofName q).toList = (marked (q.path ++ [q.name])).map (·.getD '_') := by
  rw [ofName_eq, map_marked]

theorem length_ofName (q : QualifiedName) :
    (ofName q).toList.length = q.folded.toList.length := by
  unfold folded
  rw [toList_toLower, toList_display_eq, toList_ofName_eq]
  simp only [List.length_map]

theorem colon_of_folded {q : QualifiedName} {i : Nat} (h : q.folded.toList[i]? = some ':') :
    (ofName q).toList[i]? = some ':' := by
  unfold folded at h
  rw [toList_toLower, toList_display_eq, List.getElem?_map, List.getElem?_map] at h
  rw [toList_ofName_eq, List.getElem?_map]
  obtain ⟨c, hc, hcolon⟩ := Option.map_eq_some_iff.mp h
  obtain ⟨x, hx, rfl⟩ := Option.map_eq_some_iff.mp hc
  rw [hx, Option.map_some]
  cases x with
  | none => exact absurd (eq_colon_of_toLower hcolon) (by decide)
  | some c => exact congrArg some (eq_colon_of_toLower hcolon)

/-- Where the shorter of two owners ends, the key has a colon and the identifier an underscore. -/
theorem length_le_of_method {c d : QualifiedName} {m n k l : String}
    (hidentifier : ofName c ++ ("_" ++ m) = ofName d ++ ("_" ++ n))
    (hkey : c.folded ++ ("::" ++ k) = d.folded ++ ("::" ++ l)) :
    d.folded.toList.length ≤ c.folded.toList.length := by
  by_contra hlt
  rw [Nat.not_le] at hlt
  have hcolon : d.folded.toList[c.folded.toList.length]? = some ':' := by
    have hread := congrArg (fun s : String => s.toList[c.folded.toList.length]?) hkey
    simpa [List.getElem?_append_left hlt] using hread.symm
  have hmark : (ofName d).toList[c.folded.toList.length]? = some '_' := by
    have hread := congrArg (fun s : String => s.toList[c.folded.toList.length]?) hidentifier
    rw [← length_ofName d] at hlt
    simpa [List.getElem?_append_left hlt, List.getElem?_append_right, length_ofName] using
      hread.symm
  rw [colon_of_folded hcolon] at hmark
  exact absurd hmark (by decide)

theorem method_inj {c d : QualifiedName} {m n k l : String}
    (hidentifier : ofName c ++ ("_" ++ m) = ofName d ++ ("_" ++ n))
    (hkey : c.folded ++ ("::" ++ k) = d.folded ++ ("::" ++ l)) : c.folded = d.folded ∧ k = l := by
  have hlength := Nat.le_antisymm (length_le_of_method hidentifier.symm hkey.symm)
    (length_le_of_method hidentifier hkey)
  have hlists := congrArg String.toList hkey
  simp only [String.toList_append] at hlists
  obtain ⟨howner, hname⟩ := List.append_inj hlists hlength
  exact ⟨String.toList_inj.mp howner, String.toList_inj.mp (List.append_cancel_left hname)⟩

theorem globalTable_ne {path : List String} (h : joined path = joined []) :
    "ext_global_functions" ≠ "ext_" ++ "_".intercalate path ++ "_functions" := by
  intro heq
  have hempty : ("_".intercalate path).toList.length = 0 := by
    have hjoined := congrArg (fun s : String => s.toList.length) h
    exact (length_intercalate '_' separator path).trans hjoined
  have hlength := congrArg (fun s : String => s.toList.length) heq
  simp only [String.toList_append, List.length_append, hempty] at hlength
  contradiction

theorem functionTable_inj {own p q : List String}
    (hidentifier : functionTable p own = functionTable q own) (hkey : joined p = joined q) :
    p = q := by
  by_cases hp : p = own
  · subst hp
    by_contra hne
    exact functionTable_ne q p (Ne.symm hne) hidentifier.symm
  by_cases hq : q = own
  · subst hq
    exact absurd hidentifier (functionTable_ne p q hp)
  unfold functionTable at hidentifier
  rw [if_neg hp, if_neg hq] at hidentifier
  by_cases hpnil : p = []
  · subst hpnil
    by_contra hqnil
    rw [if_pos rfl, if_neg (Ne.symm hqnil)] at hidentifier
    exact globalTable_ne hkey.symm hidentifier
  by_cases hqnil : q = []
  · subst hqnil
    rw [if_neg hpnil, if_pos rfl] at hidentifier
    exact absurd hidentifier.symm (globalTable_ne hkey)
  rw [if_neg hpnil, if_neg hqnil, String.append_left_inj, String.append_right_inj] at hidentifier
  exact eq_of_intercalate_eq (a := separator) (b := '_') hpnil hqnil (by decide) hkey hidentifier

end Identifier

namespace Validation

/-- What an identifier is claimed for. The names of functions, classes and methods are folded. -/
inductive Identity where
  | table (path : List String)
  | function (name : String)
  | cls (name : String)
  | supertype (name : String)
  | method (owner name : String)
deriving DecidableEq, Repr

structure Claimant where
  identifier : String
  identity : Identity
  location : Location
deriving DecidableEq, Repr

def claimants (e : Extension) : Family → List Claimant
  | .table => e.functionNamespaces.map fun path =>
      ⟨Identifier.functionTable path e.path, .table path, .extension⟩
  | .symbol =>
    (e.functions.map fun f =>
      ⟨Identifier.ofName f.name, .function f.name.folded, .function f.name⟩) ++
    e.classes.map fun c => ⟨Identifier.ofName c.name, .cls c.name.folded, .cls c.name⟩
  | .argInfo =>
    (e.functions.map fun f =>
      ⟨Identifier.functionArgInfo f.name, .function f.name.folded, .function f.name⟩) ++
    e.classes.flatMap fun c => c.methods.map fun m =>
      ⟨Identifier.methodArgInfo c.name m.name, .method c.name.folded m.name.toLower,
        .method c.name m.name⟩
  | .handle position => e.classes[position]?.toList.flatMap fun c => c.supertypes.map fun q =>
      ⟨Identifier.classHandle q, .supertype q.folded, .cls c.name⟩

def Identity.key : Identity → String
  | table path => "namespace:" ++ QualifiedName.joined path
  | function name => "function:" ++ name
  | cls name => "class:" ++ name
  | supertype name => "supertype:" ++ name
  | method owner name => "method:" ++ owner ++ "::" ++ name

def Claimant.claim (family : Family) (c : Claimant) : Claim :=
  ⟨family, c.identifier, c.identity.key, c.location⟩

theorem Claim.filter_map_family {f : α → Claim} {own : Family} (h : ∀ x, (f x).family = own)
    (xs : List α) (family : Family) :
    (xs.map f).filter (·.family = family) = if own = family then xs.map f else [] := by
  rw [List.filter_map]
  by_cases hfamily : own = family
  · rw [if_pos hfamily, List.filter_eq_self.mpr]
    exact fun x _ => decide_eq_true ((h x).trans hfamily)
  · rw [if_neg hfamily, List.filter_eq_nil_iff.mpr, List.map_nil]
    exact fun x _ htrue => hfamily ((h x).symm.trans (of_decide_eq_true htrue))

theorem Claim.filter_ofClass (c : Class) (position : Nat) (family : Family) :
    (ofClass c position).filter (·.family = family) =
      (if .symbol = family then [classSymbol c] else []) ++
        (if .handle position = family then c.supertypes.map (ofSupertype c position) else []) ++
        if .argInfo = family then c.methods.map (ofMethod c) else [] := by
  have hsymbol := filter_map_family (f := classSymbol) (fun _ => rfl) [c] family
  have hhandles := filter_map_family (f := ofSupertype c position) (fun _ => rfl) c.supertypes
    family
  have hmethods := filter_map_family (f := ofMethod c) (fun _ => rfl) c.methods family
  rw [← hhandles, ← hmethods, ← List.map_singleton (f := classSymbol), ← hsymbol,
    ← List.filter_append, ← List.filter_append]
  rfl

theorem Claim.filter_ofFunction (f : Function) (family : Family) :
    (ofFunction f).filter (·.family = family) =
      (if .symbol = family then [functionSymbol f] else []) ++
        if .argInfo = family then [functionArgInfo f] else [] := by
  have hsymbol := filter_map_family (f := functionSymbol) (fun _ => rfl) [f] family
  have hargInfo := filter_map_family (f := functionArgInfo) (fun _ => rfl) [f] family
  rw [← List.map_singleton (f := functionSymbol), ← List.map_singleton (f := functionArgInfo),
    ← hsymbol, ← hargInfo, ← List.filter_append]
  rfl

def Claim.ofFamily (e : Extension) : Family → List Claim
  | .table => e.functionNamespaces.map (ofNamespace e.path)
  | .symbol => e.functions.map functionSymbol ++ e.classes.map classSymbol
  | .argInfo => argInfos e
  | .handle position =>
    e.classes[position]?.toList.flatMap fun c => c.supertypes.map (ofSupertype c position)

theorem Claim.filter_ofExtension (e : Extension) (family : Family) :
    (ofExtension e).filter (·.family = family) = ofFamily e family := by
  have hnone : ∀ {α : Type} (xs : List α), (xs.flatMap fun _ => ([] : List Claim)) = [] :=
    fun xs => List.flatMap_eq_nil_iff.mpr fun _ _ => rfl
  have hposition : ∀ g : Class → List Claim, (e.classes.zipIdx.flatMap fun x => g x.1) =
      e.classes.flatMap g := by
    intro g
    rw [← List.flatMap_map, List.zipIdx_map_fst]
  unfold ofExtension
  rw [List.filter_append, List.filter_append, List.filter_flatMap, List.filter_flatMap,
    filter_map_family (f := ofNamespace e.path) (fun _ => rfl)]
  simp only [filter_ofFunction, filter_ofClass]
  cases family with
  | table => simp [ofFamily, hnone]
  | symbol =>
    have hclasses := hposition fun c => [classSymbol c]
    simp [ofFamily, hclasses, List.map_eq_flatMap]
  | argInfo =>
    have hmethods := hposition fun c => c.methods.map (ofMethod c)
    simp [ofFamily, argInfos, hmethods, List.map_eq_flatMap (l := e.functions)]
  | handle position =>
    have hclass := Sequence.flatMap_zipIdx_at (fun c i => c.supertypes.map (ofSupertype c i))
      e.classes 0 position
    rw [Nat.zero_add] at hclass
    simp [ofFamily, hnone, ← hclass]

theorem map_claim_claimants (e : Extension) (family : Family) :
    (claimants e family).map (·.claim family) = Claim.ofFamily e family := by
  cases family with
  | table => exact List.map_map ..
  | symbol =>
    rw [claimants, List.map_append, List.map_map, List.map_map]
    rfl
  | argInfo =>
    rw [claimants, List.map_append, List.map_map, List.map_flatMap]
    simp only [List.map_map]
    rfl
  | handle position =>
    rw [claimants, List.map_flatMap]
    simp only [List.map_map]
    rfl

theorem function_key_ne_cls (name other : String) :
    (Identity.function name).key ≠ (Identity.cls other).key := by
  intro heq
  have hfirst := congrArg (fun s : String => s.toList.head?) heq
  simp [Identity.key] at hfirst

theorem function_key_ne_method (name owner other : String) :
    (Identity.function name).key ≠ (Identity.method owner other).key := by
  intro heq
  have hfirst := congrArg (fun s : String => s.toList.head?) heq
  simp [Identity.key] at hfirst

section identity

variable {e : Extension} {family : Family} {a b : Claimant}

/-- A key stands for one name only, as far as claims on one identifier go. -/
theorem identity_eq_of_key (ha : a ∈ claimants e family) (hb : b ∈ claimants e family)
    (hidentifier : a.identifier = b.identifier) (hkey : a.identity.key = b.identity.key) :
    a.identity = b.identity := by
  cases family with
  | table =>
    obtain ⟨p, -, rfl⟩ := List.mem_map.mp ha
    obtain ⟨q, -, rfl⟩ := List.mem_map.mp hb
    exact congrArg Identity.table
      (Identifier.functionTable_inj hidentifier ((String.append_right_inj _).mp hkey))
  | symbol =>
    rcases List.mem_append.mp ha with ha | ha <;> obtain ⟨x, -, rfl⟩ := List.mem_map.mp ha <;>
      rcases List.mem_append.mp hb with hb | hb <;> obtain ⟨y, -, rfl⟩ := List.mem_map.mp hb
    · exact congrArg Identity.function ((String.append_right_inj _).mp hkey)
    · exact absurd hkey (function_key_ne_cls _ _)
    · exact absurd hkey.symm (function_key_ne_cls _ _)
    · exact congrArg Identity.cls ((String.append_right_inj _).mp hkey)
  | argInfo =>
    rcases List.mem_append.mp ha with ha | ha <;> rcases List.mem_append.mp hb with hb | hb
    · obtain ⟨f, -, rfl⟩ := List.mem_map.mp ha
      obtain ⟨g, -, rfl⟩ := List.mem_map.mp hb
      exact congrArg Identity.function ((String.append_right_inj _).mp hkey)
    · obtain ⟨f, -, rfl⟩ := List.mem_map.mp ha
      obtain ⟨d, -, hb⟩ := List.mem_flatMap.mp hb
      obtain ⟨n, -, rfl⟩ := List.mem_map.mp hb
      exact absurd hkey (function_key_ne_method _ _ _)
    · obtain ⟨c, -, ha⟩ := List.mem_flatMap.mp ha
      obtain ⟨m, -, rfl⟩ := List.mem_map.mp ha
      obtain ⟨g, -, rfl⟩ := List.mem_map.mp hb
      exact absurd hkey.symm (function_key_ne_method _ _ _)
    · obtain ⟨c, -, ha⟩ := List.mem_flatMap.mp ha
      obtain ⟨m, -, rfl⟩ := List.mem_map.mp ha
      obtain ⟨d, -, hb⟩ := List.mem_flatMap.mp hb
      obtain ⟨n, -, rfl⟩ := List.mem_map.mp hb
      simp only [Identifier.methodArgInfo_eq, String.append_assoc, String.append_right_inj]
        at hidentifier
      simp only [Identity.key, String.append_assoc, String.append_right_inj] at hkey
      obtain ⟨howner, hname⟩ := Identifier.method_inj hidentifier hkey
      exact congrArg₂ Identity.method howner hname
  | handle position =>
    obtain ⟨c, hc, ha⟩ := List.mem_flatMap.mp ha
    obtain ⟨q, -, rfl⟩ := List.mem_map.mp ha
    obtain ⟨d, hd, hb⟩ := List.mem_flatMap.mp hb
    obtain ⟨r, -, rfl⟩ := List.mem_map.mp hb
    exact congrArg Identity.supertype ((String.append_right_inj _).mp hkey)

theorem key_eq_iff (ha : a ∈ claimants e family) (hb : b ∈ claimants e family)
    (hidentifier : a.identifier = b.identifier) :
    a.identity.key = b.identity.key ↔ a.identity = b.identity :=
  ⟨identity_eq_of_key ha hb hidentifier, congrArg Identity.key⟩

end identity

namespace Claim

def isOn (family : Family) (identifier : String) (claim : Claim) : Bool :=
  claim.family = family && claim.identifier = identifier

def clash (first later : Claim) : Diagnostic :=
  ⟨.manglingCollision, later.location,
    s!"identifier {later.identifier} is already used by {first.location.display}"⟩

variable {family : Family} {identifier : String} {claim : Claim}

theorem contends_of_isOn (h : claim.isOn family identifier = true) :
    claim.contends = isOn family identifier := by
  obtain ⟨hfamily, hidentifier⟩ := Bool.and_eq_true_iff.mp h
  funext other
  unfold contends isOn
  rw [of_decide_eq_true hfamily, of_decide_eq_true hidentifier]
  simp only [eq_comm]

theorem ofClaim_filter (earlier : List Claim) (h : claim.isOn family identifier = true) :
    ofClaim (earlier.filter (isOn family identifier)) claim = ofClaim earlier claim := by
  unfold ofClaim
  rw [contends_of_isOn h, List.find?_filter]
  simp

theorem ofClaim_first {first : Claim} (earlier : List Claim)
    (hfirst : first.isOn family identifier = true) (h : claim.isOn family identifier = true) :
    ofClaim (first :: earlier) claim = if first.key ≠ claim.key then [clash first claim] else [] := by
  unfold ofClaim
  rw [contends_of_isOn h, List.find?_cons_of_pos hfirst]
  simp [Diagnostic.when, clash]

theorem collisions_of_isOn {first : Claim} {rest : List Claim}
    (h : ∀ claim ∈ first :: rest, claim.isOn family identifier = true) :
    Sequence.flatMapEarlier ofClaim (first :: rest) =
      (rest.filter (·.key ≠ first.key)).map (clash first) := by
  obtain ⟨hfirst, hrest⟩ := List.forall_mem_cons.mp h
  have hfrom : ∀ earlier : List Claim,
      (Sequence.mapEarlierFrom ofClaim (first :: earlier) rest).flatten =
        (rest.filter (·.key ≠ first.key)).map (clash first) := by
    clear h
    induction rest with
    | nil => exact fun _ => rfl
    | cons claim rest ih =>
      intro earlier
      obtain ⟨hclaim, hrest⟩ := List.forall_mem_cons.mp hrest
      rw [Sequence.mapEarlierFrom, List.flatten_cons, ofClaim_first earlier hfirst hclaim,
        List.cons_append, ih hrest]
      by_cases hkey : first.key = claim.key
      · rw [if_neg (not_not.mpr hkey), List.filter_cons_of_neg (by simp [hkey]), List.nil_append]
      · rw [if_pos hkey, List.filter_cons_of_pos (by simpa using Ne.symm hkey)]
        rfl
  exact hfrom []

end Claim

def reports (claims : List Claim) : List (Claim × Diagnostic) :=
  Sequence.flatMapEarlier (fun earlier claim => (ofClaim earlier claim).map (claim, ·)) claims

/-- The collisions of an extension over one identifier of a family. -/
def collisionsOver (e : Extension) (family : Family) (identifier : String) : List Diagnostic :=
  ((reports (Claim.ofExtension e)).filter (·.1.isOn family identifier)).map (·.2)

def claimantsOf (e : Extension) (family : Family) (identifier : String) : List Claimant :=
  (claimants e family).filter (·.identifier = identifier)

def Claimant.clash (first later : Claimant) : Diagnostic :=
  ⟨.manglingCollision, later.location,
    s!"identifier {later.identifier} is already used by {first.location.display}"⟩

theorem map_reports (claims : List Claim) :
    (reports claims).map (·.2) = Sequence.flatMapEarlier ofClaim claims := by
  have htag : ∀ earlier claim,
      ((ofClaim earlier claim).map (claim, ·)).map (·.2) = ofClaim earlier claim := by
    intro earlier claim
    rw [List.map_map]
    exact List.map_id _
  unfold reports
  rw [Sequence.map_flatMapEarlier]
  simp only [htag]

theorem filter_isOn_ofExtension (e : Extension) (family : Family) (identifier : String) :
    (Claim.ofExtension e).filter (Claim.isOn family identifier) =
      (claimantsOf e family identifier).map (·.claim family) := by
  have hfilter : (Claim.ofExtension e).filter (Claim.isOn family identifier) =
      ((Claim.ofExtension e).filter (·.family = family)).filter (·.identifier = identifier) := by
    rw [List.filter_filter]
    exact List.filter_congr fun claim _ => Bool.and_comm _ _
  rw [hfilter, Claim.filter_ofExtension, ← map_claim_claimants, List.filter_map]
  rfl

/-- Only the claims on an identifier decide the collisions over it. -/
theorem collisionsOver_eq (e : Extension) (family : Family) (identifier : String) :
    collisionsOver e family identifier =
      Sequence.flatMapEarlier ofClaim ((claimantsOf e family identifier).map (·.claim family)) := by
  have hfilter : (reports (Claim.ofExtension e)).filter (·.1.isOn family identifier) =
      reports ((Claim.ofExtension e).filter (Claim.isOn family identifier)) := by
    apply Sequence.filter_flatMapEarlier
    · intro earlier claim hclaim
      rw [Claim.ofClaim_filter earlier hclaim, List.filter_eq_self]
      intro r hr
      obtain ⟨d, -, rfl⟩ := List.mem_map.mp hr
      exact hclaim
    · intro earlier claim hclaim
      rw [List.filter_eq_nil_iff]
      intro r hr
      obtain ⟨d, -, rfl⟩ := List.mem_map.mp hr
      rw [hclaim]
      exact Bool.false_ne_true
  unfold collisionsOver
  rw [hfilter, map_reports, filter_isOn_ofExtension]

section claimantsOf

variable {e : Extension} {family : Family} {identifier : String} {first : Claimant}
  {rest : List Claimant}

theorem mem_claimantsOf {c : Claimant} :
    c ∈ claimantsOf e family identifier ↔ c ∈ claimants e family ∧ c.identifier = identifier := by
  unfold claimantsOf
  rw [List.mem_filter, decide_eq_true_iff]

theorem collisionsOver_of_nil (h : claimantsOf e family identifier = []) :
    collisionsOver e family identifier = [] := by
  rw [collisionsOver_eq, h]
  rfl

theorem collisionsOver_of_cons (h : claimantsOf e family identifier = first :: rest) :
    collisionsOver e family identifier =
      (rest.filter (·.identity ≠ first.identity)).map first.clash := by
  have hmem : ∀ c ∈ first :: rest, c ∈ claimants e family ∧ c.identifier = identifier :=
    fun c hc => mem_claimantsOf.mp (h ▸ hc)
  obtain ⟨hfirst, hrest⟩ := List.forall_mem_cons.mp hmem
  have hon : ∀ claim ∈ (first :: rest).map (·.claim family),
      claim.isOn family identifier = true := by
    rw [List.forall_mem_map]
    intro c hc
    simp [Claim.isOn, Claimant.claim, (hmem c hc).2]
  have hkeys : rest.filter ((fun claim : Claim => decide (claim.key ≠ (first.claim family).key)) ∘
      (·.claim family)) = rest.filter (·.identity ≠ first.identity) := by
    refine List.filter_congr fun c hc => ?_
    have hkey := key_eq_iff (hrest c hc).1 hfirst.1 ((hrest c hc).2.trans hfirst.2.symm)
    exact decide_eq_decide.mpr (not_congr hkey)
  rw [collisionsOver_eq, h, List.map_cons, Claim.collisions_of_isOn hon, List.filter_map, hkeys,
    List.map_map]
  rfl

theorem length_collisionsOver (h : claimantsOf e family identifier = first :: rest) :
    (collisionsOver e family identifier).length =
      (first :: rest).countP (·.identity ≠ first.identity) := by
  rw [collisionsOver_of_cons h, List.length_map, ← List.countP_eq_length_filter,
    List.countP_cons_of_neg (by simp)]

theorem collisionsOver_eq_nil_iff :
    collisionsOver e family identifier = [] ↔
      ∀ a ∈ claimantsOf e family identifier, ∀ b ∈ claimantsOf e family identifier,
        a.identity = b.identity := by
  cases h : claimantsOf e family identifier with
  | nil => simp [collisionsOver_of_nil h]
  | cons first rest =>
    have hfirst : collisionsOver e family identifier = [] ↔
        ∀ c ∈ first :: rest, c.identity = first.identity := by
      rw [collisionsOver_of_cons h, List.map_eq_nil_iff, List.filter_eq_nil_iff]
      simp
    rw [hfirst]
    constructor
    · exact fun hall a ha b hb => (hall a ha).trans (hall b hb).symm
    · exact fun hall c hc => hall c hc first List.mem_cons_self

end claimantsOf

theorem forall_family_ne_iff (e : Extension) (family : Family) :
    (∀ r ∈ reports (Claim.ofExtension e), r.1.family ≠ family) ↔
      ∀ identifier, collisionsOver e family identifier = [] := by
  unfold collisionsOver
  simp only [List.map_eq_nil_iff, List.filter_eq_nil_iff]
  constructor
  · intro h identifier r hr hon
    exact h r hr (of_decide_eq_true (Bool.and_eq_true_iff.mp hon).1)
  · rintro h r hr rfl
    exact h r.1.identifier r hr (by simp [Claim.isOn])

/-- The check of identifiers is exact. Every collision is over an identifier of a family. Over each
identifier there is one for every claimant that is not the first one by name: it stands at this
claimant and names the place of the first one. So a family has no collisions exactly if the claimants
of each identifier are one by name. -/
theorem collisions_exact (e : Extension) :
    (∀ mode, collisions e <:+ (e.validate mode).errors) ∧
    (reports (Claim.ofExtension e)).map (·.2) = collisions e ∧
    ∀ family,
      (∀ identifier, claimantsOf e family identifier = [] →
        collisionsOver e family identifier = []) ∧
      (∀ identifier first rest, claimantsOf e family identifier = first :: rest →
        collisionsOver e family identifier =
          (rest.filter (·.identity ≠ first.identity)).map first.clash ∧
        (collisionsOver e family identifier).length =
          (first :: rest).countP (·.identity ≠ first.identity)) ∧
      ((∀ r ∈ reports (Claim.ofExtension e), r.1.family ≠ family) ↔
        ∀ a ∈ claimants e family, ∀ b ∈ claimants e family,
          a.identifier = b.identifier → a.identity = b.identity) := by
  refine ⟨fun mode => ?_, map_reports _, fun family => ⟨fun _ => collisionsOver_of_nil,
    fun _ _ _ h => ⟨collisionsOver_of_cons h, length_collisionsOver h⟩, ?_⟩⟩
  · cases mode <;> exact List.suffix_append _ _
  · simp only [forall_family_ne_iff, collisionsOver_eq_nil_iff, mem_claimantsOf]
    constructor
    · intro h a ha b hb hidentifier
      exact h b.identifier a ⟨ha, hidentifier⟩ b ⟨hb, rfl⟩
    · rintro h identifier a ⟨ha, rfl⟩ b ⟨hb, hidentifier⟩
      exact h a ha b hb hidentifier.symm

def quays : Extension where
  path := ["Port"]
  functions := [{ name := ⟨["Quay_A"], "land"⟩ }, { name := ⟨["Quay"], "A_land"⟩ },
    { name := ⟨["Quay_A"], "land"⟩ }]
  classes := [{ name := ⟨[], "Quay_A_land"⟩ }]

theorem collisions_exact_quays :
    (claimantsOf quays .symbol "Quay_A_land").map (·.identity) =
      [.function "quay_a\\land", .function "quay\\a_land", .function "quay_a\\land",
        .cls "quay_a_land"] ∧
    (collisionsOver quays .symbol "Quay_A_land").map (·.location) =
      [.function ⟨["Quay"], "A_land"⟩, .cls ⟨[], "Quay_A_land"⟩] ∧
    (collisionsOver quays .symbol "Quay_A_land").length = 2 := by
  have hclaimants : claimantsOf quays .symbol "Quay_A_land" =
      ⟨"Quay_A_land", .function "quay_a\\land", .function ⟨["Quay_A"], "land"⟩⟩ ::
        [⟨"Quay_A_land", .function "quay\\a_land", .function ⟨["Quay"], "A_land"⟩⟩,
          ⟨"Quay_A_land", .function "quay_a\\land", .function ⟨["Quay_A"], "land"⟩⟩,
          ⟨"Quay_A_land", .cls "quay_a_land", .cls ⟨[], "Quay_A_land"⟩⟩] := by
    decide +kernel
  obtain ⟨hcollisions, hlength⟩ :=
    ((collisions_exact quays).2.2 .symbol).2.1 _ _ _ hclaimants
  refine ⟨by rw [hclaimants]; rfl, by rw [hcollisions]; rfl, by rw [hlength]; rfl⟩

end Validation

end ExtensionHeader
