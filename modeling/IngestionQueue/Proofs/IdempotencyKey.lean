import IngestionQueue.IdempotencyKey
import IngestionQueue.Proofs.Utf8

/-!
# What a key tells apart

The basis of a key joins what a request names by colons, and a colon inside a name is written as it is.  So the
names can be read back from the basis only if it is known how many colons each of them has
(`IdempotencyKey.eq_of_basis_eq`): targets whose names have their colons in different places may share a basis,
others do not (`IdempotencyKey.build_eq_iff`).
-/

namespace IngestionQueue

/-- Two different series of bytes with one digest. -/
def Sha256.Collision (a b : Bytes) : Prop :=
  a ≠ b ∧ hexDigest a = hexDigest b

/-- Each name of one target has as many colons as the same name of the other; the tenants aside. -/
structure JobTarget.ColonsAgree (x y : JobTarget) : Prop where
  workspaceId : x.workspaceId.toList.count ':' = y.workspaceId.toList.count ':'
  kbId : x.kbId.toList.count ':' = y.kbId.toList.count ':'
  documentId : x.documentId.toList.count ':' = y.documentId.toList.count ':'
  documentVersionId : x.documentVersionId.toList.count ':' = y.documentVersionId.toList.count ':'

theorem JobTarget.ColonsAgree.refl (x : JobTarget) : x.ColonsAgree x := ⟨rfl, rfl, rfl, rfl⟩

namespace IdempotencyKey

/-- The token of a client, if it counts. -/
def token (clientKey : Option String) : Option String :=
  clientKey.filter fun key => !key.isEmpty

variable {x y : JobTarget} {a b : IngestAction} {k l : Option String}

/-- What stands behind the names of the target. -/
private def ending (a : IngestAction) (k : Option String) : List Char :=
  a.name.toList ++ (token k).elim [] fun key => ':' :: key.toList

private theorem toList_basis (x : JobTarget) (a : IngestAction) (k : Option String) :
    (basis x a k).toList = x.tenantId.toList ++ ':' :: (x.workspaceId.toList ++ ':' :: (x.kbId.toList ++
      ':' :: (x.documentId.toList ++ ':' :: (x.documentVersionId.toList ++ ':' :: ending a k)))) := by
  have hcolon : ":".toList = [':'] := rfl
  cases k with
  | none => simp [basis, ending, token, hcolon]
  | some key =>
    cases hempty : key.isEmpty with
    | true => simp [basis, ending, token, hcolon, hempty, Option.filter]
    | false => simp [basis, ending, token, hcolon, hempty, Option.filter]

/-- Equally many colons before a colon put it at the same place. -/
private theorem eq_of_append_colon {p q r s : List Char} (hcount : p.count ':' = q.count ':')
    (h : p ++ ':' :: r = q ++ ':' :: s) : p = q ∧ r = s := by
  induction p generalizing q with
  | nil =>
    cases q with
    | nil => exact ⟨rfl, List.tail_eq_of_cons_eq h⟩
    | cons c q =>
      obtain rfl : ':' = c := List.head_eq_of_cons_eq h
      simp at hcount
  | cons c p ih =>
    cases q with
    | nil =>
      obtain rfl : c = ':' := List.head_eq_of_cons_eq h
      simp at hcount
    | cons d q =>
      obtain rfl : c = d := List.head_eq_of_cons_eq h
      have hcount' : p.count ':' = q.count ':' := by simpa [List.count_cons] using hcount
      obtain ⟨rfl, hrest⟩ := ih hcount' (List.tail_eq_of_cons_eq h)
      exact ⟨rfl, hrest⟩

/-- The name of the action ends at the first colon, so a token may have colons of its own. -/
private theorem eq_of_ending_eq (h : ending a k = ending b l) : a = b ∧ token k = token l := by
  obtain rfl : a = b := by
    have hhead := congrArg List.head? h
    cases a <;> cases b <;> first | rfl | exact absurd hhead (by simp [ending, IngestAction.name])
  refine ⟨rfl, ?_⟩
  have htail := List.append_cancel_left h
  cases hk : token k with
  | none =>
    cases hl : token l with
    | none => rfl
    | some t => simp [hk, hl] at htail
  | some s =>
    cases hl : token l with
    | none => simp [hk, hl] at htail
    | some t =>
      simp only [hk, hl, Option.elim_some, List.cons.injEq, true_and] at htail
      rw [String.toList_inj.1 htail]

/-- Of one tenant, and with as many colons in each name, only one and the same request has a basis. -/
theorem eq_of_basis_eq (htenant : x.tenantId = y.tenantId) (hcolons : x.ColonsAgree y)
    (h : basis x a k = basis y b l) : x = y ∧ a = b ∧ token k = token l := by
  have hlist := congrArg String.toList h
  rw [toList_basis, toList_basis, htenant] at hlist
  have hnames := List.tail_eq_of_cons_eq (List.append_cancel_left hlist)
  obtain ⟨hworkspace, hnames⟩ := eq_of_append_colon hcolons.workspaceId hnames
  obtain ⟨hkb, hnames⟩ := eq_of_append_colon hcolons.kbId hnames
  obtain ⟨hdocument, hnames⟩ := eq_of_append_colon hcolons.documentId hnames
  obtain ⟨hversion, hending⟩ := eq_of_append_colon hcolons.documentVersionId hnames
  refine ⟨?_, eq_of_ending_eq hending⟩
  cases x
  cases y
  simp only [JobTarget.mk.injEq]
  exact ⟨htenant, String.toList_inj.1 hworkspace, String.toList_inj.1 hkb, String.toList_inj.1 hdocument,
    String.toList_inj.1 hversion⟩

theorem basis_congr (hxy : x = y) (hab : a = b) (htoken : token k = token l) : basis x a k = basis y b l := by
  subst hxy hab
  rw [← String.toList_inj, toList_basis, toList_basis, ending, ending, htoken]

/-- Where the digests of two bases do not collide, the keys of two requests of a tenant are equal with colons at
the same places exactly if the requests ask for the same. -/
theorem build_eq_iff (htenant : x.tenantId = y.tenantId)
    (hcollision : ¬Sha256.Collision (Utf8.ofString (basis x a k)) (Utf8.ofString (basis y b l))) :
    build x a k = build y b l ∧ x.ColonsAgree y ↔ x = y ∧ a = b ∧ token k = token l := by
  constructor
  · rintro ⟨hkey, hcolons⟩
    have hbytes : Utf8.ofString (basis x a k) = Utf8.ofString (basis y b l) := by
      exact Classical.byContradiction fun hne => hcollision ⟨hne, hkey⟩
    exact eq_of_basis_eq htenant hcolons (Utf8.ofString_injective hbytes)
  · rintro ⟨hxy, hab, htoken⟩
    refine ⟨?_, hxy ▸ .refl x⟩
    rw [build, build, basis_congr hxy hab htoken]

end IdempotencyKey

end IngestionQueue
