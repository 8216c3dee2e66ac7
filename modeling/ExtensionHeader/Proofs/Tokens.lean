import ExtensionHeader.Proofs.FileScope
import ExtensionHeader.Proofs.Locals
import ExtensionHeader.Proofs.Sharing

/-! The identifiers of a header. Those that are made from declared names alone are valid, as
validation has looked at each of these names. It does not look at the names of supertypes and of
the classes in types of properties, so the handles of these are valid only if the names hold
nothing but letters, digits and underscores. -/
namespace ExtensionHeader

open Header

/-- All characters of the name can stand in an identifier. -/
def QualifiedName.IsPlain (q : QualifiedName) : Prop :=
  ∀ s ∈ q.path ++ [q.name], ∀ c ∈ s.toList, Identifier.isContinuation c = true

instance (q : QualifiedName) : Decidable q.IsPlain :=
  decidable_of_iff (∀ s ∈ q.path ++ [q.name], s.toList.all Identifier.isContinuation = true)
    (forall₂_congr fun _ _ => List.all_eq_true)

namespace Identifier

theorem isValid_append_iff {s t : String} (h : isValid s = true) :
    isValid (s ++ t) = true ↔ ∀ c ∈ t.toList, isContinuation c = true := by
  unfold isValid at h ⊢
  rw [String.toList_append]
  cases hs : s.toList with
  | nil => simp [hs] at h
  | cons first rest =>
    simp only [hs, Bool.and_eq_true] at h
    simp only [List.cons_append, List.all_append, Bool.and_eq_true, List.all_eq_true, h.1, true_and]
    exact ⟨fun h' => h'.2, fun h' => ⟨List.all_eq_true.mp h.2, h'⟩⟩

theorem forall_mem_ofName_iff (q : QualifiedName) :
    (∀ c ∈ (ofName q).toList, isContinuation c = true) ↔ q.IsPlain := by
  constructor
  · intro h s hs c hc
    exact h c (mem_ofName hs hc)
  · intro h c hc
    rcases of_mem_ofName hc with rfl | ⟨s, hs, hc⟩
    · decide
    · exact h s hs c hc

theorem isValid_append_ofName_iff {front : String} (h : isValid front = true) (q : QualifiedName) :
    isValid (front ++ ofName q) = true ↔ q.IsPlain := by
  rw [isValid_append_iff h, forall_mem_ofName_iff]

end Identifier

theorem QualifiedName.IsValid.isPlain {q : QualifiedName} (h : q.IsValid) : q.IsPlain :=
  fun s hs _ hc => Identifier.isContinuation_of_mem (h s hs) hc

namespace Identifier

/-! Identifiers that are made from valid names. -/

theorem isValid_append {s t : String} (hs : isValid s = true)
    (ht : ∀ c ∈ t.toList, isContinuation c = true) : isValid (s ++ t) = true :=
  (isValid_append_iff hs).mpr ht

theorem isValid_append_of_isValid {s t : String} (hs : isValid s = true)
    (ht : isValid t = true) : isValid (s ++ t) = true :=
  isValid_append hs fun _ hc => isContinuation_of_mem ht hc

section names

variable {q : QualifiedName} (h : q.IsValid)

include h

theorem isValid_ofName : isValid (ofName q) = true := by
  have hname : isValid q.name = true := h _ (List.mem_append_right _ List.mem_cons_self)
  cases hpath : q.path with
  | nil =>
    unfold ofName
    rw [hpath, List.map_nil, String.join_nil, String.empty_append]
    exact hname
  | cons s rest =>
    have hs : isValid s = true := h _ (by simp [hpath])
    have hsplit : ofName q = s ++ ("_" ++ ofName ⟨rest, q.name⟩) := by
      unfold ofName
      rw [hpath, List.map_cons, String.join_cons]
      simp only [String.append_assoc]
    have hrest : QualifiedName.IsPlain ⟨rest, q.name⟩ := by
      intro t ht
      apply h.isPlain t
      rw [hpath, List.cons_append]
      exact List.mem_cons_of_mem s ht
    rw [hsplit]
    apply isValid_append hs
    exact fun c hc => isContinuation_of_mem
      ((isValid_append_ofName_iff (by decide) _).mpr hrest) hc

theorem isValid_functionArgInfo : isValid (functionArgInfo q) = true :=
  (isValid_append_ofName_iff (by decide) q).mpr h.isPlain

theorem isValid_methodArgInfo {method : String} (hm : isValid method = true) :
    isValid (methodArgInfo q method) = true := by
  have hfront : isValid ("arginfo_class_" ++ ofName q) = true :=
    (isValid_append_ofName_iff (by decide) q).mpr h.isPlain
  exact isValid_append_of_isValid (isValid_append_of_isValid hfront (by decide)) hm

theorem isValid_methodTable : isValid (methodTable q) = true := by
  have hfront : isValid ("class_" ++ ofName q) = true :=
    (isValid_append_ofName_iff (by decide) q).mpr h.isPlain
  exact isValid_append_of_isValid hfront (by decide)

theorem isValid_registration : isValid (registration q) = true :=
  (isValid_append_ofName_iff (by decide) q).mpr h.isPlain

end names

theorem isValid_functionTable {path own : List String} (h : ∀ s ∈ path, isValid s = true) :
    isValid (functionTable path own) = true := by
  unfold functionTable
  split
  · decide
  · split
    · decide
    · refine isValid_append_of_isValid (isValid_append (by decide) ?_) (by decide)
      intro c hc
      have hjoined : c ∈ ((String.singleton '_').intercalate path).toList := hc
      rcases QualifiedName.mem_intercalate hjoined with rfl | ⟨s, hs, hc⟩
      · decide
      · exact isContinuation_of_mem (h s hs) hc

end Identifier

/-! The identifiers that a header is made of: names of blocks, handlers, tables and routines, and
the variables of routines. -/
namespace Header

def ArgInfo.tokens : ArgInfo → List String
  | block name _ => [name]
  | synonym name owner => [name, owner]

def Handler.token : Handler → String
  | function name => name
  | method cls _ => cls

def Entry.tokens (entry : Entry) : List String :=
  entry.argInfo :: match entry with
    | .function .. => []
    | .namespaced _ _ handler _ => [handler]
    | .method cls .. | .abstractMethod cls .. => [cls]

def Statement.tokens : Statement → List String
  | initEntry q => [Identifier.methodTable q]
  | register parent? => parent?.toList.map Identifier.classHandle
  | implement interfaces => interfaces.map Identifier.classHandle
  | declareValue name | setValue name _ | makeString name _ | holdString name _ | untyped name
  | maskType name _ | makeList name _ | setCount name _ | releaseString name => [name]
  | giveString value handle => [value, handle]
  | classType type handle | unionType type handle _ => [type, handle]
  | setSlot list _ handle => [list, handle]
  | declareProperty name value _ type => [name, value, type]
  | _ => []

def Routine.tokens (r : Routine) : List String :=
  r.name :: r.parameters.map Identifier.classHandle ++ r.body.flatMap (·.tokens)

def Section.tokens : Section → List String
  | banner => []
  | argInfo item => item.tokens
  | forward handlers => handlers.map (·.token)
  | table entries => entries.name :: entries.entries.flatMap (·.tokens)
  | routine code => code.tokens

end Header

def Property.ownTokens (p : Property) : List String :=
  [Variable.value p.name, Variable.text p.name, Variable.name p.name, Variable.type p.name,
    Variable.list p.name]

def Class.ownTokens (c : Class) : List String :=
  [Identifier.ofName c.name, Identifier.methodTable c.name, Identifier.registration c.name] ++
    c.methods.map (fun m => Identifier.methodArgInfo c.name m.name) ++
    c.properties.flatMap (·.ownTokens)

def Class.references (c : Class) : List QualifiedName :=
  c.supertypes ++ c.properties.flatMap (·.classes)

def Class.referenceTokens (c : Class) : List String :=
  c.supertypes.map Identifier.classHandle ++ c.properties.flatMap (·.classHandles)

namespace Extension

def ownTokens (e : Extension) : List String :=
  (functionTables e).map (·.name) ++
    e.functions.flatMap (fun f => [Identifier.ofName f.name, Identifier.functionArgInfo f.name]) ++
    e.classes.flatMap (·.ownTokens)

def tokens (e : Extension) : List String := e.ownTokens ++ e.classes.flatMap (·.referenceTokens)

end Extension

/-! Which identifiers these are. -/

namespace Identifier

theorem isValid_of_mem_ownTokens {p : Property} (h : isValid p.name = true) {token : String}
    (ht : token ∈ p.ownTokens) : isValid token = true := by
  have hstem : isValid (Variable.stem p.name) = true :=
    isValid_append_of_isValid (by decide) h
  have hvalid : ∀ ending ∈ Variable.endings, isValid ending = true := by decide
  have hending : ∃ ending ∈ Variable.endings, token = Variable.stem p.name ++ ending := by
    simp only [Property.ownTokens, List.mem_cons, List.not_mem_nil, or_false] at ht
    rcases ht with rfl | rfl | rfl | rfl | rfl
    · exact ⟨"_default_value", by decide, rfl⟩
    · exact ⟨"_default_value_str", by decide, String.append_assoc⟩
    · exact ⟨"_name", by decide, rfl⟩
    · exact ⟨"_type", by decide, rfl⟩
    · exact ⟨"_type_list", by decide, rfl⟩
  obtain ⟨ending, hmem, rfl⟩ := hending
  exact isValid_append_of_isValid hstem (hvalid ending hmem)

end Identifier

theorem Class.Accepted.isValid_of_mem_ownTokens {c : Class} (h : c.Accepted) {token : String}
    (ht : token ∈ c.ownTokens) : Identifier.isValid token = true := by
  simp only [Class.ownTokens, List.mem_append, List.mem_cons, List.not_mem_nil, or_false,
    List.mem_map, List.mem_flatMap] at ht
  rcases ht with ((rfl | rfl | rfl) | ⟨m, hm, rfl⟩) | ⟨p, hp, ht⟩
  · exact Identifier.isValid_ofName h.name
  · exact Identifier.isValid_methodTable h.name
  · exact Identifier.isValid_registration h.name
  · exact Identifier.isValid_methodArgInfo h.name (h.methodName m hm)
  · exact Identifier.isValid_of_mem_ownTokens (h.property p hp).name ht

theorem Class.Accepted.isValid_referenceTokens_iff {c : Class} (h : c.Accepted) :
    (∀ token ∈ c.referenceTokens, Identifier.isValid token = true) ↔
      ∀ q ∈ c.references, q.IsPlain := by
  have hsupertype : ∀ q, Identifier.isValid (Identifier.classHandle q) = true ↔ q.IsPlain :=
    fun q => Identifier.isValid_append_ofName_iff (by decide) q
  have hclass : ∀ p ∈ c.properties, ∀ q,
      Identifier.isValid (Variable.cls p.name q) = true ↔ q.IsPlain := by
    intro p hp q
    apply Identifier.isValid_append_ofName_iff
    exact Identifier.isValid_append_of_isValid
      (Identifier.isValid_append_of_isValid (by decide) (h.property p hp).name) (by decide)
  simp only [Class.referenceTokens, Class.references, Property.classHandles, List.forall_mem_append,
    List.forall_mem_map, List.forall_mem_flatMap, hsupertype]
  apply and_congr_right'
  exact forall₂_congr fun p hp => forall₂_congr fun q _ => hclass p hp q

theorem Extension.Accepted.isValid_of_mem_ownTokens {e : Extension} (h : e.Accepted)
    {token : String} (ht : token ∈ e.ownTokens) : Identifier.isValid token = true := by
  simp only [Extension.ownTokens, List.mem_append, List.mem_map, List.mem_flatMap] at ht
  rcases ht with (⟨table, htable, rfl⟩ | ⟨f, hf, ht⟩) | ⟨c, hc, ht⟩
  · obtain ⟨path, hpath, rfl⟩ := List.mem_map.mp htable
    apply Identifier.isValid_functionTable
    rcases List.mem_cons.mp hpath with rfl | hpath
    · exact h.path
    · exact h.path_isValid (List.mem_filter.mp hpath).1
  · simp only [List.mem_cons, List.not_mem_nil, or_false] at ht
    rcases ht with rfl | rfl
    · exact Identifier.isValid_ofName (h.functionName f hf)
    · exact Identifier.isValid_functionArgInfo (h.functionName f hf)
  · exact (h.cls c hc).isValid_of_mem_ownTokens ht

/-! Where they stand in a header. -/
namespace Header

variable {e : Extension} {token : String}

theorem mem_tokens_of_function {f : Function} (hf : f ∈ e.functions)
    (h : token ∈ [Identifier.ofName f.name, Identifier.functionArgInfo f.name]) :
    token ∈ e.tokens := by
  apply List.mem_append_left
  apply List.mem_append_left
  exact List.mem_append_right _ (List.mem_flatMap.mpr ⟨f, hf, h⟩)

theorem mem_tokens_of_class {c : Class} (hc : c ∈ e.classes) (h : token ∈ c.ownTokens) :
    token ∈ e.tokens := by
  apply List.mem_append_left
  exact List.mem_append_right _ (List.mem_flatMap.mpr ⟨c, hc, h⟩)

theorem mem_tokens_of_reference {c : Class} (hc : c ∈ e.classes) (h : token ∈ c.referenceTokens) :
    token ∈ e.tokens :=
  List.mem_append_right _ (List.mem_flatMap.mpr ⟨c, hc, h⟩)

theorem ofName_mem_ownTokens (c : Class) : Identifier.ofName c.name ∈ c.ownTokens := by
  simp [Class.ownTokens]

theorem methodArgInfo_mem_ownTokens {c : Class} {m : Method} (hm : m ∈ c.methods) :
    Identifier.methodArgInfo c.name m.name ∈ c.ownTokens :=
  List.mem_append_left _ (List.mem_append_right _ (List.mem_map_of_mem hm))

theorem mem_tokens_of_declaration (h : token ∈ (declarations e).map (·.1)) : token ∈ e.tokens := by
  obtain ⟨d, hd, rfl⟩ := List.mem_map.mp h
  rcases List.mem_append.mp hd with hd | hd
  · obtain ⟨f, hf, rfl⟩ := List.mem_map.mp hd
    exact mem_tokens_of_function hf (List.mem_cons_of_mem _ List.mem_cons_self)
  · obtain ⟨c, hc, hd⟩ := List.mem_flatMap.mp hd
    obtain ⟨m, hm, rfl⟩ := List.mem_map.mp hd
    exact mem_tokens_of_class hc (methodArgInfo_mem_ownTokens hm)

theorem mem_names_of_share {names : List String} {owners : ArgInfo.Owners}
    (howners : ∀ digest, ∀ owner ∈ owners.bucket digest, owner.1 ∈ names)
    {ds : List (String × Signature)} (hds : ∀ d ∈ ds, d.1 ∈ names) :
    ∀ item ∈ ArgInfo.share owners ds, ∀ token ∈ item.tokens, token ∈ names := by
  induction ds generalizing owners with
  | nil => exact fun item h => absurd h List.not_mem_nil
  | cons d rest ih =>
    obtain ⟨hd, hrest⟩ := List.forall_mem_cons.mp hds
    unfold ArgInfo.share
    cases hfind : owners.find? d.2 with
    | some owner =>
      have howner : owner.1 ∈ names := howners _ owner (List.mem_of_find?_eq_some hfind)
      rw [List.forall_mem_cons]
      refine ⟨?_, ih howners hrest⟩
      simpa [ArgInfo.tokens] using ⟨hd, howner⟩
    | none =>
      rw [List.forall_mem_cons]
      refine ⟨by simpa [ArgInfo.tokens] using hd, ih ?_ hrest⟩
      intro digest owner howner
      rw [ArgInfo.Owners.bucket_add] at howner
      split at howner
      · rcases List.mem_append.mp howner with howner | howner
        · exact howners digest owner howner
        · rwa [List.mem_singleton.mp howner]
      · exact howners digest owner howner

theorem mem_declarations_of_argInfo {shares : Bool} {item : ArgInfo}
    (hitem : item ∈ argInfos shares e) (h : token ∈ item.tokens) :
    token ∈ (declarations e).map (·.1) := by
  have hnames : ∀ d ∈ declarations e, d.1 ∈ (declarations e).map (·.1) :=
    fun d hd => List.mem_map_of_mem hd
  cases shares with
  | true =>
    exact mem_names_of_share (fun _ _ h => absurd h List.not_mem_nil) hnames item hitem token h
  | false =>
    obtain ⟨d, hd, rfl⟩ := List.mem_map.mp hitem
    rw [List.mem_singleton.mp h]
    exact hnames d hd

theorem mem_tokens_of_argInfo {shares : Bool} {item : ArgInfo} (hitem : item ∈ argInfos shares e)
    (h : token ∈ item.tokens) : token ∈ e.tokens :=
  mem_tokens_of_declaration (mem_declarations_of_argInfo hitem h)

theorem mem_tokens_of_handler {handler : Handler} (h : handler ∈ handlers e) :
    handler.token ∈ e.tokens := by
  rcases List.mem_append.mp h with h | h
  · obtain ⟨f, hf, rfl⟩ := List.mem_map.mp h
    exact mem_tokens_of_function hf List.mem_cons_self
  · obtain ⟨c, hc, h⟩ := List.mem_flatMap.mp h
    obtain ⟨m, -, rfl⟩ := List.mem_map.mp h
    exact mem_tokens_of_class hc (ofName_mem_ownTokens c)

theorem mem_tokens_of_functionTable {table : EntryTable} (htable : table ∈ functionTables e)
    (h : token ∈ (Section.table table).tokens) : token ∈ e.tokens := by
  rcases List.mem_cons.mp h with rfl | h
  · apply List.mem_append_left
    exact List.mem_append_left _ (List.mem_append_left _ (List.mem_map_of_mem htable))
  · obtain ⟨path, -, rfl⟩ := List.mem_map.mp htable
    obtain ⟨entry, hentry, h⟩ := List.mem_flatMap.mp h
    obtain ⟨f, hf, rfl⟩ := List.mem_map.mp hentry
    apply mem_tokens_of_function (List.mem_filter.mp hf).1
    unfold Entry.ofFunction at h
    split at h
    · simpa using .inr (List.mem_singleton.mp h)
    · simpa [Entry.tokens, Entry.argInfo, or_comm] using h

theorem mem_tokens_of_methodTable {c : Class} (hc : c ∈ e.classes)
    (h : token ∈ (Section.table (EntryTable.ofClass c)).tokens) : token ∈ e.tokens := by
  apply mem_tokens_of_class hc
  rcases List.mem_cons.mp h with rfl | h
  · simp [Class.ownTokens, EntryTable.ofClass]
  · obtain ⟨entry, hentry, h⟩ := List.mem_flatMap.mp h
    obtain ⟨m, hm, rfl⟩ := List.mem_map.mp hentry
    have htoken : token = Identifier.methodArgInfo c.name m.name ∨
        token = Identifier.ofName c.name := by
      unfold Entry.ofMethod at h
      dsimp only at h
      split at h <;> simpa [Entry.tokens, Entry.argInfo] using h
    rcases htoken with rfl | rfl
    · exact methodArgInfo_mem_ownTokens hm
    · exact ofName_mem_ownTokens c

theorem Statement.IsFor.tokens {p : Property} {s : Statement} (hs : s.IsFor p)
    (h : token ∈ s.tokens) : token ∈ p.ownTokens ∨ token ∈ p.classHandles := by
  have htoken : token ∈ p.ownTokens ∨ ∃ q ∈ p.classes, token = Variable.cls p.name q := by
    cases hs <;> simp only [Statement.tokens, List.mem_cons, List.not_mem_nil, or_false] at h <;>
      simp only [Property.ownTokens, List.mem_cons, List.not_mem_nil, or_false] <;> grind
  refine htoken.imp_right ?_
  rintro ⟨q, hq, rfl⟩
  exact List.mem_map_of_mem hq

theorem Statement.IsFor.mem_tokens {c : Class} {p : Property} (hp : p ∈ c.properties)
    {s : Statement} (hs : s.IsFor p) (h : token ∈ s.tokens) :
    token ∈ c.ownTokens ∨ token ∈ c.referenceTokens := by
  rcases hs.tokens h with h | h
  · exact .inl (List.mem_append_right _ (List.mem_flatMap.mpr ⟨p, hp, h⟩))
  · exact .inr (List.mem_append_right _ (List.mem_flatMap.mpr ⟨p, hp, h⟩))

theorem eq_initEntry_or_tokens {c : Class} {s : Statement} (hs : s ∈ registerClass c) :
    s = .initEntry c.name ∨ ∀ token ∈ s.tokens, ∃ q ∈ s.uses, token = Identifier.classHandle q := by
  have hcases : s ∈ [.declareEntry, .blank, .initEntry c.name, .register c.parent?] ∨
      s = .addFlags (AccessFlags.ofClass c) ∨ s = .implement c.interfaces ∨ s = .blank := by
    simp only [registerClass, List.mem_append] at hs
    split at hs <;> split at hs <;> grind
  simp only [List.mem_cons, List.not_mem_nil, or_false] at hcases
  rcases hcases with (rfl | rfl | rfl | rfl) | rfl | rfl | rfl
  · exact .inr fun _ h => absurd h List.not_mem_nil
  · exact .inr fun _ h => absurd h List.not_mem_nil
  · exact .inl rfl
  · exact .inr (List.forall_mem_map.mpr fun q hq => ⟨q, hq, rfl⟩)
  · exact .inr fun _ h => absurd h List.not_mem_nil
  · exact .inr (List.forall_mem_map.mpr fun q hq => ⟨q, hq, rfl⟩)
  · exact .inr fun _ h => absurd h List.not_mem_nil

theorem tokens_of_mem_registerClass {c : Class} {s : Statement} (hs : s ∈ registerClass c)
    (h : token ∈ s.tokens) :
    token = Identifier.methodTable c.name ∨ ∃ q ∈ s.uses, token = Identifier.classHandle q := by
  rcases eq_initEntry_or_tokens hs with rfl | htokens
  · exact .inl (List.mem_singleton.mp h)
  · exact .inr (htokens token h)

theorem mem_tokens_of_routine {interner : Interner} {c : Class} {r : Routine}
    (hr : Routine.ofClass interner c = .ok r) (h : token ∈ r.tokens) :
    token ∈ c.ownTokens ∨ token ∈ c.referenceTokens := by
  have hsupertype : ∀ q ∈ c.supertypes, Identifier.classHandle q ∈ c.referenceTokens :=
    fun q hq => List.mem_append_left _ (List.mem_map_of_mem hq)
  obtain ⟨statements, hs, -, rfl⟩ := ofClass_eq_ok hr
  simp only [Routine.tokens, List.flatMap_append, List.cons_append, List.mem_cons,
    List.mem_append] at h
  rcases h with rfl | h | (h | h) | h
  · left
    simp [Class.ownTokens]
  · obtain ⟨q, hq, rfl⟩ := List.mem_map.mp h
    exact .inr (hsupertype q (Sequence.mem_of_mem_firstBy hq))
  · obtain ⟨s, hmem, h⟩ := List.mem_flatMap.mp h
    rcases tokens_of_mem_registerClass hmem h with rfl | ⟨q, hq, rfl⟩
    · left
      simp [Class.ownTokens]
    · refine .inr (hsupertype q ?_)
      rw [← uses_registerClass c]
      exact List.mem_flatMap.mpr ⟨s, hmem, hq⟩
  · obtain ⟨s, hmem, h⟩ := List.mem_flatMap.mp h
    obtain ⟨p, hp, hfor⟩ := isFor_declareProperties hs s hmem
    exact hfor.mem_tokens hp h
  · exact absurd h List.not_mem_nil

/-- A header is made of the identifiers of its extension. -/
theorem mem_tokens_of_sections {options : Options} {ss : List Section}
    (h : sections options e = .ok ss) : ∀ token ∈ ss.flatMap (·.tokens), token ∈ e.tokens := by
  intro token hmem
  obtain ⟨s, hs, htoken⟩ := List.mem_flatMap.mp hmem
  rw [sections_eq, map_eq_ok_iff] at h
  obtain ⟨rs, hrs, rfl⟩ := h
  simp only [trailing, List.mem_append, List.mem_map] at hs
  rcases hs with (hs | ⟨item, hitem, rfl⟩) | ((hs | ⟨table, htable, rfl⟩) | ⟨c, hc, rfl⟩) |
    ⟨r, hr, rfl⟩
  · unfold leading at hs
    split at hs
    · rw [List.mem_singleton.mp hs] at htoken
      exact absurd htoken List.not_mem_nil
    · exact absurd hs List.not_mem_nil
  · exact mem_tokens_of_argInfo hitem htoken
  · have hforward : s = .forward (handlers e) := by
      unfold forward at hs
      split at hs
      · exact absurd hs List.not_mem_nil
      · exact List.mem_singleton.mp hs
    rw [hforward] at htoken
    obtain ⟨handler, hhandler, rfl⟩ := List.mem_map.mp htoken
    exact mem_tokens_of_handler hhandler
  · exact mem_tokens_of_functionTable htable htoken
  · exact mem_tokens_of_methodTable hc htoken
  · obtain ⟨c, hc, hclass⟩ := exists_class_of_mem_routines hrs hr
    rcases mem_tokens_of_routine hclass htoken with htoken | htoken
    · exact mem_tokens_of_class hc htoken
    · exact mem_tokens_of_reference hc htoken

/-- The identifiers of an extension without errors are valid exactly if the names of the classes
that it refers to have no other characters than identifiers have. -/
theorem isValid_tokens_iff {e : Extension} (h : (e.validate .lenient).errors = []) :
    (∀ token ∈ e.ownTokens, Identifier.isValid token = true) ∧
      ((∀ token ∈ e.tokens, Identifier.isValid token = true) ↔
        ∀ c ∈ e.classes, ∀ q ∈ c.references, q.IsPlain) ∧
      ∀ options ss, sections options e = .ok ss →
        ∀ token ∈ ss.flatMap (·.tokens), token ∈ e.tokens := by
  have accepted := Validation.accepted_of_errors h
  have hown : ∀ token ∈ e.ownTokens, Identifier.isValid token = true :=
    fun token ht => accepted.isValid_of_mem_ownTokens ht
  refine ⟨hown, ?_, fun options ss hss => mem_tokens_of_sections hss⟩
  have hreferences : (∀ c ∈ e.classes, ∀ token ∈ c.referenceTokens,
      Identifier.isValid token = true) ↔ ∀ c ∈ e.classes, ∀ q ∈ c.references, q.IsPlain :=
    forall₂_congr fun c hc => (accepted.cls c hc).isValid_referenceTokens_iff
  rw [← hreferences, Extension.tokens, List.forall_mem_append, List.forall_mem_flatMap]
  exact and_iff_right hown

def spooler : Extension where
  path := ["Print"]
  functions := [{ name := ⟨["Print"], "open"⟩ }, { name := ⟨[], "lpr"⟩ }]
  classes := [{
    name := ⟨["Print"], "Spooler"⟩
    parent? := some ⟨["Print", "Base"], "_Queue2"⟩
    interfaces := [⟨[], "3d"⟩]
    methods := [{ name := "add", isStatic := true }]
    properties := [{
      name := "jobs"
      type? := some (.union { classes := [⟨["Print"], "Job"⟩], isNullable := true }) }] }]

theorem isValid_tokens_spooler :
    (spooler.validate .lenient).errors = [] ∧
      ∀ token ∈ spooler.tokens, Identifier.isValid token = true := by
  have h : (spooler.validate .lenient).errors = [] := by decide +kernel
  refine ⟨h, (isValid_tokens_iff h).2.1.mpr ?_⟩
  decide +kernel

def hyphenated : Extension where
  classes := [{ name := ⟨[], "Reader"⟩, parent? := some ⟨[], "io-base"⟩ }]

theorem not_isValid_tokens_hyphenated :
    (hyphenated.validate .lenient).errors = [] ∧ ∃ out ss, generate {} hyphenated = .ok out ∧
      sections {} hyphenated = .ok ss ∧
      ∃ token ∈ ss.flatMap (·.tokens), Identifier.isValid token = false := by
  have h : (hyphenated.validate .lenient).errors = [] := by decide +kernel
  obtain ⟨out, hout⟩ : ∃ out, generate {} hyphenated = .ok out :=
    exists_generate_eq_ok h (by decide +kernel)
  obtain ⟨ss, hss, -⟩ := map_eq_ok_iff.mp (generate_eq_ok_iff.mp hout).2.2
  refine ⟨h, out, ss, hout, hss, "class_entry_io-base", ?_, by decide⟩
  obtain ⟨r, hmem, hr⟩ := routine_mem_sections hss List.mem_cons_self
  obtain ⟨statements, -, -, rfl⟩ := ofClass_eq_ok hr
  have hparameter : "class_entry_io-base" ∈
      (Sequence.firstBy (·.folded) [⟨[], "io-base"⟩]).map Identifier.classHandle := by
    decide
  exact List.mem_flatMap.mpr
    ⟨_, hmem, List.mem_cons_of_mem _ (List.mem_append_left _ hparameter)⟩

end Header

end ExtensionHeader
