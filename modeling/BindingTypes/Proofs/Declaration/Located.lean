import BindingTypes.Proofs.Declaration.Nesting
import BindingTypes.Proofs.Text.Bytes

namespace BindingTypes

/-- The bytes of ASCII white space. -/
def asciiWhitespace : List UInt8 := [0x09, 0x0A, 0x0C, 0x0D, 0x20]

/-- The source holds this text at an offset in bytes. -/
def Text.Holds (source : Text) (offset : Nat) (t : Text) : Prop :=
  ∃ before after, source = before ++ t ++ after ∧ Declaration.byteLength before = offset

namespace Declaration

/-- The offset right behind a token. -/
def Token.stop (token : Token) : Nat := token.offset + byteLength token.text

/-- The byte with this offset is one of the token's. -/
def Token.Covers (token : Token) (i : Nat) : Prop := token.offset ≤ i ∧ i < token.stop

/-- The text from this offset on is made of the tokens, in their order, and spaces. -/
inductive Tiles : Nat → Text → List Token → Prop
  | nil {offset : Nat} : Tiles offset [] []
  | space {offset : Nat} {c : Char} {t : Text} {ts : List Token} (hc : isSpace c = true)
      (h : Tiles (offset + 1) t ts) : Tiles offset (c :: t) ts
  | token {offset : Nat} {w t : Text} {ts : List Token} (hw : w ≠ [])
      (h : Tiles (offset + byteLength w) t ts) : Tiles offset (w ++ t) (⟨w, offset⟩ :: ts)

variable {t : Text} {ts : List Token} {c : Char} {offset i : Nat} {b : UInt8}

theorem tokensFrom_tiles (offset : Nat) (t : Text) : Tiles offset t (tokensFrom offset t) := by
  fun_induction tokensFrom offset t with
  | case1 => exact .nil
  | case2 offset c cs hspace ih => exact .space hspace ih
  | case3 offset c cs hspace word ih =>
    have hword : word ≠ [] := by
      obtain ⟨k, hk⟩ := Nat.exists_eq_succ_of_ne_zero (Nat.ne_of_gt (tokenLength_pos c cs))
      simp [word, hk]
    have htile := Tiles.token hword ih
    rwa [List.take_append_drop] at htile

theorem length_bytes (t : Text) : t.bytes.length = byteLength t := by
  induction t with
  | nil => rfl
  | cons c t ih =>
    rw [Text.bytes_cons, List.length_append, String.length_utf8EncodeChar, ih, byteLength]

/-- A space is one byte. -/
theorem encoded_of_isSpace (hc : isSpace c = true) :
    ∃ b ∈ asciiWhitespace, String.utf8EncodeChar c = [b] := by
  simp only [isSpace, Bool.or_eq_true, decide_eq_true_eq] at hc
  rcases hc with (((rfl | rfl) | rfl) | rfl) | rfl
  · exact ⟨0x20, by decide, by decide⟩
  · exact ⟨0x09, by decide, by decide⟩
  · exact ⟨0x0A, by decide, by decide⟩
  · exact ⟨0x0C, by decide, by decide⟩
  · exact ⟨0x0D, by decide, by decide⟩

theorem utf8Size_of_isSpace (hc : isSpace c = true) : c.utf8Size = 1 := by
  obtain ⟨b, -, hencoded⟩ := encoded_of_isSpace hc
  rw [← String.length_utf8EncodeChar, hencoded, List.length_singleton]

namespace Tiles

theorem ne_nil (h : Tiles offset t ts) : ∀ token ∈ ts, token.text ≠ [] := by
  induction h with
  | nil => exact List.forall_mem_nil _
  | space _ _ ih => exact ih
  | token hw _ ih => exact List.forall_mem_cons.mpr ⟨hw, ih⟩

theorem offset_le (h : Tiles offset t ts) : ∀ token ∈ ts, offset ≤ token.offset := by
  induction h with
  | nil => exact List.forall_mem_nil _
  | space _ _ ih => exact fun token htoken => Nat.le_of_succ_le (ih token htoken)
  | token _ _ ih =>
    refine List.forall_mem_cons.mpr ⟨Nat.le_refl _, fun token htoken => ?_⟩
    exact Nat.le_of_add_right_le (ih token htoken)

theorem ordered (h : Tiles offset t ts) : ts.Pairwise fun a b => a.stop ≤ b.offset := by
  induction h with
  | nil => exact .nil
  | space _ _ ih => exact ih
  | token _ h ih => exact .cons h.offset_le ih

/-- Each token is what the text holds at its offset. -/
theorem holds (h : Tiles offset t ts) : ∀ token ∈ ts, ∃ before after,
    t = before ++ token.text ++ after ∧ offset + byteLength before = token.offset := by
  induction h with
  | nil => exact List.forall_mem_nil _
  | @space offset c t ts hc _ ih =>
    intro token htoken
    obtain ⟨before, after, rfl, hoffset⟩ := ih token htoken
    refine ⟨c :: before, after, rfl, ?_⟩
    rw [byteLength, utf8Size_of_isSpace hc, ← Nat.add_assoc, hoffset]
  | @token offset w t ts hw h ih =>
    refine List.forall_mem_cons.mpr ⟨⟨[], t, rfl, rfl⟩, fun token htoken => ?_⟩
    obtain ⟨before, after, rfl, hoffset⟩ := ih token htoken
    refine ⟨w ++ before, after, by simp, ?_⟩
    rw [byteLength_append, ← hoffset, Nat.add_assoc]

/-- A byte that belongs to no token is white space. -/
theorem whitespace (h : Tiles offset t ts) (hb : t.bytes[i]? = some b)
    (hnone : ∀ token ∈ ts, ¬ token.Covers (offset + i)) : b ∈ asciiWhitespace := by
  induction h generalizing i with
  | nil => cases hb
  | @space offset c t ts hc _ ih =>
    obtain ⟨b', hb', hencoded⟩ := encoded_of_isSpace hc
    rw [Text.bytes_cons, hencoded] at hb
    cases i with
    | zero =>
      cases hb
      exact hb'
    | succ i =>
      refine ih hb fun token htoken => ?_
      rw [Nat.add_assoc, Nat.add_comm 1 i]
      exact hnone token htoken
  | @token offset w t ts _ h ih =>
    -- the byte is not one of this token's, so it stands behind them
    obtain ⟨hnot, hnone⟩ := List.forall_mem_cons.mp hnone
    have hbehind : byteLength w ≤ i := by
      by_contra hi
      exact hnot ⟨Nat.le_add_right _ _, Nat.add_lt_add_left (Nat.lt_of_not_le hi) _⟩
    rw [Text.bytes_append, List.getElem?_append_right (by rwa [length_bytes]), length_bytes] at hb
    refine ih hb fun token htoken => ?_
    rw [Nat.add_assoc, Nat.add_sub_cancel' hbehind]
    exact hnone token htoken

end Tiles

/-- The tokens of a text are all of it but ASCII white space: none is empty, each is what the text
holds at its offset, they follow one another without overlap, and a byte of none of them is white
space. A declaration that is refused at a token is refused with this text, one of its tokens and the
offset where the text holds it; and a higher bound on the nesting of the rules than the one parsed
with gives no other answer. -/
theorem tokens_lossless_errors_located (source : Text) :
    (∀ token ∈ tokens source, token.text ≠ [] ∧ source.Holds token.offset token.text) ∧
      (tokens source).Pairwise (fun a b => a.stop ≤ b.offset) ∧
      (∀ i b, source.bytes[i]? = some b → (∀ token ∈ tokens source, ¬ token.Covers i) →
        b ∈ asciiWhitespace) ∧
      (∀ found offset text, parse source = .error (.unexpected found offset text) →
        text = source ∧ ⟨found, offset⟩ ∈ tokens source ∧ source.Holds offset found) ∧
      ∀ n, 8 * ((tokens source).length + 1) ≤ n → declaration source n (tokens source) =
        declaration source (8 * ((tokens source).length + 1)) (tokens source) := by
  have htiles : Tiles 0 source (tokens source) := tokensFrom_tiles 0 source
  have hholds : ∀ token ∈ tokens source, source.Holds token.offset token.text := by
    intro token htoken
    obtain ⟨before, after, hsource, hoffset⟩ := htiles.holds token htoken
    exact ⟨before, after, hsource, by rw [← hoffset, Nat.zero_add]⟩
  refine ⟨fun token htoken => ⟨htiles.ne_nil token htoken, hholds token htoken⟩, htiles.ordered,
    fun i b hb hnone => htiles.whitespace hb (by rwa [Nat.zero_add]), ?_,
    fun n hn => declaration_of_bound source hn⟩
  intro found offset text h
  have hread := parse_reads source
  rw [h] at hread
  obtain ⟨hmem, htext⟩ := hread
  exact ⟨htext, hmem, hholds _ hmem⟩

/-- An argument that is no type is copied, and copying stops at the bracket it does not open; the
offsets count two bytes for `é`. -/
theorem stray_bracket_located :
    parse "Map<é + 1, char)>".toList =
        .error (.unexpected [')'] 16 "Map<é + 1, char)>".toList) ∧
      ⟨[')'], 16⟩ ∈ tokens "Map<é + 1, char)>".toList ∧
      Text.Holds "Map<é + 1, char)>".toList 16 [')'] ∧
      (∀ token ∈ tokens "Map<é + 1, char)>".toList, ¬ token.Covers 6) ∧
      0x20 ∈ asciiWhitespace := by
  have hparse : parse "Map<é + 1, char)>".toList =
      .error (.unexpected [')'] 16 "Map<é + 1, char)>".toList) := by decide +kernel
  have hnone : ∀ token ∈ tokens "Map<é + 1, char)>".toList,
      ¬ (token.offset ≤ 6 ∧ 6 < token.stop) := by decide +kernel
  have hbyte : (Text.bytes "Map<é + 1, char)>".toList)[6]? = some 0x20 := by decide +kernel
  obtain ⟨-, -, hspaces, herrors, -⟩ := tokens_lossless_errors_located "Map<é + 1, char)>".toList
  obtain ⟨-, hmem, hholds⟩ := herrors _ _ _ hparse
  exact ⟨hparse, hmem, hholds, hnone, hspaces 6 0x20 hbyte hnone⟩

end Declaration

end BindingTypes
