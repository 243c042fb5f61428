import OnlyDoge.Warehouse.Facts
set_option autoImplicit false

/-! The texts of movement ids tell output keys apart as long as no txid holds a colon. -/

namespace OnlyDoge

theorem colon_split {xs xs' ys ys' : List Char} (h : ':' ∉ xs) (h' : ':' ∉ xs')
    (heq : xs ++ ':'::ys = xs' ++ ':'::ys') : xs = xs' ∧ ys = ys' := by
  induction xs generalizing xs' with
  | nil =>
    cases xs' with
    | nil => exact ⟨rfl,(List.cons.inj heq).2⟩
    | cons c xs' => exact absurd (List.cons.inj heq).1 (fun hc => h' (hc ▸ List.mem_cons_self))
  | cons c xs ih =>
    cases xs' with
    | nil =>
      exact absurd (List.cons.inj heq).1 (fun hc => h (hc.symm ▸ List.mem_cons_self))
    | cons d xs' =>
      obtain ⟨rfl,hrest⟩ := List.cons.inj heq
      obtain ⟨rfl,hys⟩ := ih (fun hm => h (List.mem_cons_of_mem _ hm))
        (fun hm => h' (List.mem_cons_of_mem _ hm)) hrest
      exact ⟨rfl,hys⟩

theorem toString_toList (n : Nat) : (toString n).toList = Nat.toDigits 10 n :=
  Nat.toList_repr

theorem colon_not_mem_digits (n : Nat) : ':' ∉ Nat.toDigits 10 n := by
  intro h
  have hdigit := Nat.isDigit_of_mem_toDigits (by omega) (by omega) h
  exact absurd hdigit (by decide)

theorem toDigits_injective {m n : Nat} (h : Nat.toDigits 10 m = Nat.toDigits 10 n) : m = n := by
  rw [← @Nat.ofDigitChars_ten_toDigits m,h,Nat.ofDigitChars_ten_toDigits]

namespace OutputKey

/-- A transaction id is hexadecimal text. -/
def Plain (key : OutputKey) : Prop := ':' ∉ key.txid.toList

theorem text_toList (key : OutputKey) :
    key.text.toList = key.txid.toList ++ ':'::Nat.toDigits 10 key.index := by
  rw [text,String.toList_append,String.toList_append,toString_toList,List.append_assoc]
  rfl

theorem text_injective {k k' : OutputKey} (hk : k.Plain) (hk' : k'.Plain)
    (h : k.text.toList = k'.text.toList) : k = k' := by
  rw [text_toList,text_toList] at h
  obtain ⟨htxid,hindex⟩ := colon_split hk hk' h
  cases k
  cases k'
  simp only at htxid hindex
  rw [String.toList_injective htxid,toDigits_injective hindex]

end OutputKey

def creditId (key : OutputKey) : String := "core-credit:" ++ key.text

def debitId (key : OutputKey) (spentByTxid : String) (spentInputIndex : Nat) : String :=
  "core-debit:" ++ key.text ++ ":" ++ spentByTxid ++ ":" ++ toString spentInputIndex

theorem coreCreditMovement_id (output : ProjectionUtxoOutput) :
    (coreCreditMovement output).movementId = creditId output.outputKey := rfl

theorem coreDebitMovement_id (application : CoreDogecoinBlockApplication)
    (spend : CoreDogecoinSpend) (output : ProjectionUtxoOutput) :
    (coreDebitMovement application spend output).movementId =
      debitId spend.outputKey spend.spentByTxid spend.spentInputIndex := rfl

theorem creditId_injective {k k' : OutputKey} (hk : k.Plain) (hk' : k'.Plain)
    (h : creditId k = creditId k') : k = k' := by
  have hlist := congrArg String.toList h
  simp only [creditId,String.toList_append,List.append_cancel_left_eq] at hlist
  exact OutputKey.text_injective hk hk' hlist

theorem debitId_toList (key : OutputKey) (spentByTxid : String) (spentInputIndex : Nat) :
    ∃ rest, (debitId key spentByTxid spentInputIndex).toList =
      "core-debit:".toList ++ (key.txid.toList ++
        ':'::(Nat.toDigits 10 key.index ++ ':'::rest)) := by
  refine ⟨spentByTxid.toList ++ (":" ++ toString spentInputIndex).toList,?_⟩
  simp only [debitId,String.toList_append,OutputKey.text_toList,List.append_assoc]
  rfl

theorem debitId_injective {k k' : OutputKey} {t t' : String} {i i' : Nat} (hk : k.Plain)
    (hk' : k'.Plain) (h : debitId k t i = debitId k' t' i') : k = k' := by
  obtain ⟨rest,hlist⟩ := debitId_toList k t i
  obtain ⟨rest',hlist'⟩ := debitId_toList k' t' i'
  rw [h,hlist',List.append_cancel_left_eq] at hlist
  obtain ⟨htxid,hrest⟩ := colon_split hk' hk hlist
  obtain ⟨hindex,-⟩ := colon_split (colon_not_mem_digits _) (colon_not_mem_digits _) hrest
  cases k
  cases k'
  simp only at htxid hindex
  rw [String.toList_injective htxid,toDigits_injective hindex]

theorem creditId_ne_debitId (k k' : OutputKey) (t : String) (i : Nat) :
    creditId k ≠ debitId k' t i := by
  intro h
  have hlist := congrArg String.toList h
  obtain ⟨rest,hdebit⟩ := debitId_toList k' t i
  rw [hdebit] at hlist
  simp [creditId] at hlist

end OnlyDoge
