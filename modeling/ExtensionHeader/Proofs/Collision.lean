import ExtensionHeader.Proofs.Naming

/-! The identifiers that claims keep apart. Without collisions the claims on one identifier have one
key, so declarations with different keys have different identifiers. -/
namespace ExtensionHeader

open Validation

namespace Validation

theorem Claim.contends_self (claim : Claim) : claim.contends claim = true := by
  unfold contends
  simp

theorem Claim.contends_congr {a b : Claim} (hfamily : a.family = b.family)
    (hidentifier : a.identifier = b.identifier) : a.contends = b.contends := by
  funext claim
  unfold contends
  rw [hfamily, hidentifier]

theorem key_of_find? {claims : List Claim} (h : Sequence.flatMapEarlier ofClaim claims = [])
    {claim first : Claim} (hclaim : claim ∈ claims)
    (hfirst : claims.find? claim.contends = some first) : first.key = claim.key := by
  obtain ⟨before, after, rfl⟩ := List.append_of_mem hclaim
  have hnil := (Sequence.flatMapEarlier_eq_nil_iff _ _).mp h before claim after rfl
  unfold ofClaim at hnil
  rw [List.find?_append] at hfirst
  cases hbefore : before.find? claim.contends with
  | none =>
    rw [hbefore, Option.none_or, List.find?_cons_of_pos claim.contends_self] at hfirst
    cases hfirst
    rfl
  | some other =>
    rw [hbefore, Option.some_or] at hfirst
    cases hfirst
    rw [hbefore] at hnil
    simpa using hnil

theorem key_eq_of_identifier_eq {claims : List Claim}
    (h : Sequence.flatMapEarlier ofClaim claims = []) {a b : Claim} (ha : a ∈ claims)
    (hb : b ∈ claims) (hfamily : a.family = b.family) (hidentifier : a.identifier = b.identifier) :
    a.key = b.key := by
  have hsome : (claims.find? a.contends).isSome := by
    rw [List.find?_isSome]
    exact ⟨a, ha, a.contends_self⟩
  obtain ⟨first, hfirst⟩ := Option.isSome_iff_exists.mp hsome
  have hother := hfirst
  rw [Claim.contends_congr hfamily hidentifier] at hother
  rw [← key_of_find? h ha hfirst, key_of_find? h hb hother]

theorem nodup_map_identifier {e : Extension} (h : collisions e = []) {α : Type}
    (claim : α → Claim) {xs : List α} (hmem : ∀ x ∈ xs, claim x ∈ Claim.ofExtension e)
    (family : Family) (hfamily : ∀ x ∈ xs, (claim x).family = family)
    (hkeys : (xs.map fun x => (claim x).key).Nodup) :
    (xs.map fun x => (claim x).identifier).Nodup := by
  apply Sequence.nodup_map_of_determines hkeys
  intro x hx y hy hidentifier
  apply key_eq_of_identifier_eq h (hmem x hx) (hmem y hy) _ hidentifier
  rw [hfamily x hx, hfamily y hy]

namespace Claim

/-! The claims of single declarations, by what they are on. -/

def functionSymbol (f : Function) : Claim :=
  ⟨.symbol, Identifier.ofName f.name, "function:" ++ f.name.folded, .function f.name⟩

def functionArgInfo (f : Function) : Claim :=
  ⟨.argInfo, Identifier.functionArgInfo f.name, "function:" ++ f.name.folded, .function f.name⟩

def classSymbol (c : Class) : Claim :=
  ⟨.symbol, Identifier.ofName c.name, "class:" ++ c.name.folded, .cls c.name⟩

def argInfos (e : Extension) : List Claim :=
  e.functions.map functionArgInfo ++ e.classes.flatMap fun c => c.methods.map (ofMethod c)

section mem

variable {e : Extension} {path : List String} {f : Function} {c : Class} {m : Method}

theorem ofNamespace_mem (h : path ∈ e.functionNamespaces) :
    ofNamespace e.path path ∈ ofExtension e := by
  unfold ofExtension
  exact List.mem_append_left _ (List.mem_append_left _ (List.mem_map_of_mem h))

theorem mem_of_mem_ofFunction (hf : f ∈ e.functions) {claim : Claim}
    (h : claim ∈ [functionSymbol f, functionArgInfo f]) : claim ∈ ofExtension e := by
  unfold ofExtension
  apply List.mem_append_left
  apply List.mem_append_right
  exact List.mem_flatMap.mpr ⟨f, hf, h⟩

theorem exists_position (hc : c ∈ e.classes) :
    ∃ position, ∀ claim ∈ ofClass c position, claim ∈ ofExtension e := by
  obtain ⟨position, hposition⟩ := List.mem_iff_getElem?.mp hc
  refine ⟨position, fun claim hclaim => ?_⟩
  unfold ofExtension
  apply List.mem_append_right
  exact List.mem_flatMap.mpr
    ⟨(c, position), List.mk_mem_zipIdx_iff_getElem?.mpr hposition, hclaim⟩

theorem classSymbol_mem (hc : c ∈ e.classes) : classSymbol c ∈ ofExtension e := by
  have ⟨position, hmem⟩ := exists_position hc
  apply hmem
  exact List.mem_append_left _ List.mem_cons_self

theorem ofMethod_mem (hc : c ∈ e.classes) (hm : m ∈ c.methods) :
    ofMethod c m ∈ ofExtension e := by
  have ⟨position, hmem⟩ := exists_position hc
  apply hmem
  exact List.mem_append_right _ (List.mem_map_of_mem hm)

theorem mem_of_mem_argInfos {claim : Claim} (h : claim ∈ argInfos e) :
    claim ∈ ofExtension e ∧ claim.family = .argInfo := by
  rcases List.mem_append.mp h with h | h
  · obtain ⟨f, hf, rfl⟩ := List.mem_map.mp h
    exact ⟨mem_of_mem_ofFunction hf (List.mem_cons_of_mem _ List.mem_cons_self), rfl⟩
  · obtain ⟨c, hc, h⟩ := List.mem_flatMap.mp h
    obtain ⟨m, hm, rfl⟩ := List.mem_map.mp h
    exact ⟨ofMethod_mem hc hm, rfl⟩

end mem

end Claim

end Validation

theorem Identifier.eq_of_append_colon {s t x y : String} (hs : ':' ∉ s.toList)
    (ht : ':' ∉ t.toList) (h : s ++ ("::" ++ x) = t ++ ("::" ++ y)) : s = t ∧ x = y := by
  have hread : ∀ {s : String} (x : String), ':' ∉ s.toList →
      (s ++ ("::" ++ x)).toList.takeWhile (· ≠ ':') = s.toList := by
    intro s x hs
    have hkept : ∀ c ∈ s.toList, decide (c ≠ ':') = true := by
      intro c hc
      rw [decide_eq_true_eq]
      rintro rfl
      exact hs hc
    rw [String.toList_append, List.takeWhile_append_of_pos hkept, String.toList_append]
    simp
  have hst : s = t := by
    rw [← String.toList_inj, ← hread x hs, h, hread y ht]
  rw [hst, String.append_right_inj, String.append_right_inj] at h
  exact ⟨hst, h⟩

theorem Validation.Claim.ofMethod_key_inj {c d : Class} (hc : c.name.IsValid)
    (hd : d.name.IsValid) {m n : Method} (h : (ofMethod c m).key = (ofMethod d n).key) :
    c.name.folded = d.name.folded ∧ m.name.toLower = n.name.toLower := by
  unfold ofMethod at h
  simp only [String.append_assoc, String.append_right_inj] at h
  exact Identifier.eq_of_append_colon hc.colon_not_mem_folded hd.colon_not_mem_folded h

namespace Extension.Accepted

variable {e : Extension} (h : e.Accepted)

include h

theorem nodup_functionKeys :
    (e.functions.map fun f => "function:" ++ f.name.folded).Nodup := by
  apply Sequence.nodup_map_of_determines h.functions
  intro f _ g _ hkey
  exact (String.append_right_inj _).mp hkey

theorem nodup_classKeys : (e.classes.map fun c => "class:" ++ c.name.folded).Nodup := by
  apply Sequence.nodup_map_of_determines h.classes
  intro c _ d _ hkey
  exact (String.append_right_inj _).mp hkey

theorem nodup_methodKeys :
    (e.classes.flatMap fun c => c.methods.map fun m => (Claim.ofMethod c m).key).Nodup := by
  rw [List.nodup_flatMap]
  constructor
  · intro c hc
    have hname := (h.cls c hc).name
    apply Sequence.nodup_map_of_determines (h.cls c hc).methods
    intro m _ n _ hkey
    exact (Claim.ofMethod_key_inj hname hname hkey).2
  · have hclasses := List.pairwise_map.mp h.classes
    apply hclasses.imp_of_mem
    intro c d hc hd hfolded key hkc hkd
    obtain ⟨m, -, rfl⟩ := List.mem_map.mp hkc
    obtain ⟨n, -, heq⟩ := List.mem_map.mp hkd
    have hkeys := Claim.ofMethod_key_inj (h.cls d hd).name (h.cls c hc).name heq
    exact hfolded hkeys.1.symm

theorem nodup_argInfoKeys : ((Claim.argInfos e).map (·.key)).Nodup := by
  have hkeys : (Claim.argInfos e).map (·.key) =
      (e.functions.map fun f => "function:" ++ f.name.folded) ++
        e.classes.flatMap fun c => c.methods.map fun m => (Claim.ofMethod c m).key := by
    unfold Claim.argInfos
    rw [List.map_append, List.map_map, List.map_flatMap]
    simp only [List.map_map]
    rfl
  rw [hkeys, List.nodup_append']
  refine ⟨h.nodup_functionKeys, h.nodup_methodKeys, ?_⟩
  intro key hf hm
  obtain ⟨f, -, rfl⟩ := List.mem_map.mp hf
  obtain ⟨c, -, hm⟩ := List.mem_flatMap.mp hm
  obtain ⟨m, -, heq⟩ := List.mem_map.mp hm
  have hfirst := congrArg (fun s : String => s.toList.head?) heq
  unfold Claim.ofMethod at hfirst
  simp at hfirst

theorem path_isValid {path : List String} (hpath : path ∈ e.functionNamespaces) :
    ∀ s ∈ path, Identifier.isValid s = true := by
  unfold Extension.functionNamespaces at hpath
  rw [List.mem_eraseDups] at hpath
  obtain ⟨f, hf, rfl⟩ := List.mem_map.mp hpath
  intro s hs
  exact h.functionName f hf s (List.mem_append_left _ hs)

theorem nodup_namespaceKeys :
    (e.functionNamespaces.map fun path => "namespace:" ++ QualifiedName.joined path).Nodup := by
  have hpaths : (e.functionNamespaces.map id).Nodup := by
    rw [List.map_id]
    exact Sequence.nodup_eraseDups (e.functions.map (·.name.path))
  apply Sequence.nodup_map_of_determines hpaths
  intro path hp other ho hkey
  exact QualifiedName.joined_inj (h.path_isValid hp) (h.path_isValid ho)
    ((String.append_right_inj _).mp hkey)

end Extension.Accepted

/-! The identifiers that the claims are on. -/
namespace Extension.Accepted

variable {e : Extension} (h : e.Accepted) (hcollisions : collisions e = [])

include h hcollisions

theorem nodup_functionNames : (e.functions.map fun f => Identifier.ofName f.name).Nodup := by
  apply nodup_map_identifier hcollisions Claim.functionSymbol _ .symbol _ h.nodup_functionKeys
  · intro f hf
    exact Claim.mem_of_mem_ofFunction hf List.mem_cons_self
  · exact fun _ _ => rfl

theorem nodup_classNames : (e.classes.map fun c => Identifier.ofName c.name).Nodup := by
  apply nodup_map_identifier hcollisions Claim.classSymbol _ .symbol _ h.nodup_classKeys
  · intro c hc
    exact Claim.classSymbol_mem hc
  · exact fun _ _ => rfl

theorem nodup_argInfoNames : ((Claim.argInfos e).map (·.identifier)).Nodup := by
  apply nodup_map_identifier hcollisions id _ .argInfo _ h.nodup_argInfoKeys
  · exact fun _ hclaim => (Claim.mem_of_mem_argInfos hclaim).1
  · exact fun _ hclaim => (Claim.mem_of_mem_argInfos hclaim).2

theorem nodup_tableNames :
    (e.functionNamespaces.map fun path => Identifier.functionTable path e.path).Nodup := by
  apply nodup_map_identifier hcollisions (Claim.ofNamespace e.path) _ .table _
    h.nodup_namespaceKeys
  · exact fun _ hpath => Claim.ofNamespace_mem hpath
  · exact fun _ _ => rfl

end Extension.Accepted

end ExtensionHeader
