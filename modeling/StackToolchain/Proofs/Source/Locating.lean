import StackToolchain.Proofs.Source.Comments
import StackToolchain.Source.Location

/-! Places are exact.
The place of an offset is found by cutting the source before the character that reaches past it. The line is the number
of newlines before the cut, and the column the number of characters between the last of them and the cut. -/
namespace StackToolchain

namespace Text

private theorem byteWidth_reverse (text : List Char) : byteWidth text.reverse = byteWidth text := by
  rw [byteWidth_eq_sum, byteWidth_eq_sum, List.map_reverse, List.sum_reverse]

private theorem isValid_iff_restAt {source : String} {offset : Nat} :
    String.Pos.Raw.IsValid source ⟨offset⟩ ↔ ∃ rest, RestAt source.toList offset rest := by
  constructor
  · intro h
    obtain ⟨before, rest, rfl, hend⟩ := String.Pos.Raw.isValid_iff_exists_append.mp h
    refine ⟨rest.toList, before.toList, String.toList_append, ?_⟩
    rw [byteWidth_toList]
    exact (congrArg String.Pos.Raw.byteIdx hend).symm
  · rintro ⟨rest, hrest⟩
    exact hrest.isValid

end Text

namespace Source

open Text (byteWidth RestAt)

private theorem cutAtByte_eq (done : List Char) (bytes : Nat) (text : List Char) :
    ∃ front rest, cutAtByte done bytes text = (front.reverse ++ done, rest) ∧ text = front ++ rest ∧
      byteWidth front ≤ bytes ∧ ∀ c, rest.head? = some c → bytes < byteWidth front + c.utf8Size := by
  fun_induction cutAtByte done bytes text with
  | case1 done bytes => exact ⟨[], [], rfl, rfl, Nat.zero_le _, by simp⟩
  | case2 done bytes c text hle ih =>
    obtain ⟨front, rest, hcut, rfl, hfront, hnext⟩ := ih
    refine ⟨c :: front, rest, by simp [hcut], rfl, ?_, fun d hd => ?_⟩
    · rw [Text.byteWidth_cons]
      omega
    · have hd := hnext d hd
      rw [Text.byteWidth_cons]
      omega
  | case3 done bytes c text hlt =>
    refine ⟨[], c :: text, rfl, rfl, Nat.zero_le _, fun d hd => ?_⟩
    cases hd
    rw [Text.byteWidth_nil]
    omega

/-- A cut before the character that reaches past an offset is at the last boundary up to the offset. -/
theorem isGreatest_cut {source : String} {front rest : List Char} {offset : Nat} (h : source.toList = front ++ rest)
    (hfront : byteWidth front ≤ offset) (hnext : ∀ c, rest.head? = some c → offset < byteWidth front + c.utf8Size) :
    IsGreatest {b | String.Pos.Raw.IsValid source ⟨b⟩ ∧ b ≤ min offset source.utf8ByteSize} (byteWidth front) := by
  have hcut : RestAt source.toList (byteWidth front) rest := ⟨front, h, rfl⟩
  refine ⟨⟨hcut.isValid, Nat.le_min.mpr ⟨hfront, Text.byteWidth_toList source ▸ hcut.le_byteWidth⟩⟩, ?_⟩
  rintro b ⟨hvalid, hb⟩
  obtain ⟨rest', before, hbefore, rfl⟩ := Text.isValid_iff_restAt.mp hvalid
  rw [h] at hbefore
  rcases List.append_eq_append_iff.mp hbefore with ⟨more, rfl, hmore⟩ | ⟨more, rfl, -⟩
  · cases more with
    | nil => rw [List.append_nil]
    | cons c more =>
      -- the other cut would be behind the character that reaches past the offset
      have hc := hnext c (by rw [hmore]; rfl)
      rw [Text.byteWidth_append, Text.byteWidth_cons] at hb
      omega
  · rw [Text.byteWidth_append]
    exact Nat.le_add_right _ _

def lineFront (text : List Char) : List Char :=
  text.takeWhile (· != '\n')

@[simp] theorem lineFront_newline (text : List Char) : lineFront ('\n' :: text) = [] := rfl

private theorem lineFront_cons {c : Char} (hc : c ≠ '\n') (text : List Char) :
    lineFront (c :: text) = c :: lineFront text := by
  simp [lineFront, hc]

private theorem splitOn_newline (text : List Char) : ('\n' :: text).splitOn '\n' = [] :: text.splitOn '\n' := by
  rw [List.splitOn_eq_splitOnP, List.splitOnP_cons_eq_if_modifyHead, if_pos (by decide), ← List.splitOn_eq_splitOnP]

private theorem splitOn_cons {c : Char} (hc : c ≠ '\n') {text line : List Char} {others : List (List Char)}
    (h : text.splitOn '\n' = line :: others) : (c :: text).splitOn '\n' = (c :: line) :: others := by
  rw [List.splitOn_eq_splitOnP, List.splitOnP_cons_eq_if_modifyHead, if_neg (by simpa using hc),
    ← List.splitOn_eq_splitOnP, h]
  rfl

private theorem exists_splitOn_eq (text : List Char) : ∃ others, text.splitOn '\n' = lineFront text :: others := by
  induction text with
  | nil => exact ⟨[], rfl⟩
  | cons c text ih =>
    by_cases hc : c = '\n'
    · rw [hc, splitOn_newline]
      exact ⟨_, rfl⟩
    · obtain ⟨others, hothers⟩ := ih
      rw [splitOn_cons hc hothers, lineFront_cons hc]
      exact ⟨others, rfl⟩

/-- The lines of a text that is cut, with the text before the cut held in reverse: as many lines as it has newlines come
before the line with the cut, and they and the front of this line are what is before the cut. -/
theorem splitOn_cut {before after : List Char} {others : List (List Char)}
    (h : after.splitOn '\n' = lineFront after :: others) :
    ∃ front, (before.reverse ++ after).splitOn '\n' =
        front ++ ((lineFront before).reverse ++ lineFront after) :: others ∧
      front.length = before.count '\n' ∧
      (front.map (byteWidth · + 1)).sum + byteWidth (lineFront before) = byteWidth before := by
  induction before generalizing after others with
  | nil => exact ⟨[], h, rfl, rfl⟩
  | cons c before ih =>
    rw [List.reverse_cons, List.append_assoc, List.singleton_append, Text.byteWidth_cons]
    by_cases hc : c = '\n'
    · subst hc
      have hnext : ('\n' :: after).splitOn '\n' = lineFront ('\n' :: after) :: lineFront after :: others := by
        rw [splitOn_newline, h, lineFront_newline]
      obtain ⟨front, hlines, hlen, hwidth⟩ := ih hnext
      refine ⟨front ++ [(lineFront before).reverse], by simp [hlines], ?_, ?_⟩
      · rw [List.length_append, hlen, List.count_cons_self]
        rfl
      · have hnewline : '\n'.utf8Size = 1 := rfl
        rw [List.map_append, List.sum_append, ← hwidth, hnewline]
        simp only [List.map_cons, List.map_nil, List.sum_cons, List.sum_nil, Text.byteWidth_reverse, lineFront_newline,
          Text.byteWidth_nil]
        omega
    · have hnext : (c :: after).splitOn '\n' = lineFront (c :: after) :: others := by
        rw [splitOn_cons hc h, lineFront_cons hc]
      obtain ⟨front, hlines, hlen, hwidth⟩ := ih hnext
      refine ⟨front, by simp [hlines, lineFront_cons hc], ?_, ?_⟩
      · rw [hlen, List.count_cons_of_ne hc]
      · rw [lineFront_cons hc, Text.byteWidth_cons, ← hwidth]
        omega

private theorem locate_eq {source before rest : List Char} {offset : Nat}
    (h : cutAtByte [] offset source = (before, rest)) : locate source offset =
      ⟨before.count '\n', (lineFront before).length, (lineFront before).reverse ++ lineFront rest⟩ := by
  rw [locate, h]
  rfl

/-- The place of an offset: its text is the line of its number, and the lines before this one, with a newline behind
each, and the text before the column reach up to the last boundary between characters that is not past the offset or the
end. -/
theorem locations_are_exact (source : String) (offset : Nat) :
    let place := locate source.toList offset
    let lines := source.toList.splitOn '\n'
    lines[place.line]? = some place.excerpt ∧ place.column ≤ place.excerpt.length ∧
      IsGreatest {b | String.Pos.Raw.IsValid source ⟨b⟩ ∧ b ≤ min offset source.utf8ByteSize}
        (((lines.take place.line).map (byteWidth · + 1)).sum + byteWidth (place.excerpt.take place.column)) := by
  obtain ⟨front, rest, hcut, hsource, hle, hnext⟩ := cutAtByte_eq [] offset source.toList
  rw [List.append_nil] at hcut
  obtain ⟨others, hothers⟩ := exists_splitOn_eq rest
  obtain ⟨above, hlines, hlen, hwidth⟩ := @splitOn_cut front.reverse rest others hothers
  rw [List.reverse_reverse, ← hsource] at hlines
  have hgreatest := isGreatest_cut hsource hle hnext
  rw [← Text.byteWidth_reverse, ← hwidth] at hgreatest
  simp only [locate_eq hcut, hlines, ← hlen]
  refine ⟨by simp, by simp, ?_⟩
  rw [List.take_left, List.take_left' (List.length_reverse), Text.byteWidth_reverse]
  exact hgreatest

end Source

end StackToolchain
