import ScriptSyntax.Tree.Node

/-!
Equality of trees is decidable: it compares constructor by constructor.
-/

namespace ScriptSyntax

mutual

def Node.same : Node → Node → Bool
  | .int v s, .int v' s' => v = v' && s = s'
  | .double v s, .double v' s' => v = v' && s = s'
  | .string v s, .string v' s' => v = v' && s = s'
  | .load x s, .load x' s' => x = x' && s = s'
  | .declare x v s, .declare x' v' s' => x = x' && v.same v' && s = s'
  | .assign x o v s, .assign x' o' v' s' => x = x' && o = o' && v.same v' && s = s'
  | .unary o v s, .unary o' v' s' => o = o' && v.same v' && s = s'
  | .binary o l r s, .binary o' l' r' s' => o = o' && l.same l' && r.same r' && s = s'
  | .call n f as s, .call n' f' as' s' => n = n' && f = f' && sameNodes as as' && s = s'
  | .print as s, .print as' s' => sameNodes as as' && s = s'
  | .nativeCall g t s, .nativeCall g' t' s' => g = g' && t = t' && s = s'
  | .block b, .block b' => b.same b'
  | .branch c t none s, .branch c' t' none s' => c.same c' && t.same t' && s = s'
  | .branch c t (some e) s, .branch c' t' (some e') s' =>
    c.same c' && t.same t' && e.same e' && s = s'
  | .whileLoop c b s, .whileLoop c' b' s' => c.same c' && b.same b' && s = s'
  | .forLoop x r b s, .forLoop x' r' b' s' => x = x' && r.same r' && b.same b' && s = s'
  | .giveBack none s, .giveBack none s' => s = s'
  | .giveBack (some v) s, .giveBack (some v') s' => v.same v' && s = s'
  | _, _ => false

def Block.same : Block → Block → Bool
  | ⟨x, body, s⟩, ⟨x', body', s'⟩ => x = x' && sameNodes body body' && s = s'

def sameNodes : List Node → List Node → Bool
  | [], [] => true
  | n :: ns, n' :: ns' => n.same n' && sameNodes ns ns'
  | _, _ => false

end

mutual

theorem Node.same_iff (a b : Node) : a.same b = true ↔ a = b := by
  match a with
  | .int .. | .double .. | .string .. | .load .. | .nativeCall .. =>
    cases b <;> simp [Node.same, and_assoc]
  | .declare _ v _ | .assign _ _ v _ | .unary _ v _ =>
    cases b <;> simp [Node.same, v.same_iff, and_assoc]
  | .binary _ l r _ => cases b <;> simp [Node.same, l.same_iff, r.same_iff, and_assoc]
  | .call _ _ as _ | .print as _ => cases b <;> simp [Node.same, sameNodes_iff as, and_assoc]
  | .block c => cases b <;> simp [Node.same, c.same_iff]
  | .branch c t none _ =>
    rcases b with _ | _ | _ | _ | _ | _ | _ | _ | _ | _ | _ | _ | ⟨_, _, _ | _, _⟩ | _ | _ | _ <;>
      simp [Node.same, c.same_iff, t.same_iff, and_assoc]
  | .branch c t (some e) _ =>
    rcases b with _ | _ | _ | _ | _ | _ | _ | _ | _ | _ | _ | _ | ⟨_, _, _ | _, _⟩ | _ | _ | _ <;>
      simp [Node.same, c.same_iff, t.same_iff, e.same_iff, and_assoc]
  | .whileLoop c d _ | .forLoop _ c d _ =>
    cases b <;> simp [Node.same, c.same_iff, d.same_iff, and_assoc]
  | .giveBack none _ =>
    rcases b with _ | _ | _ | _ | _ | _ | _ | _ | _ | _ | _ | _ | _ | _ | _ | ⟨_ | _, _⟩ <;>
      simp [Node.same]
  | .giveBack (some v) _ =>
    rcases b with _ | _ | _ | _ | _ | _ | _ | _ | _ | _ | _ | _ | _ | _ | _ | ⟨_ | _, _⟩ <;>
      simp [Node.same, v.same_iff]

theorem Block.same_iff (a b : Block) : a.same b = true ↔ a = b := by
  match a, b with
  | ⟨_, body, _⟩, ⟨_, body', _⟩ => simp [Block.same, sameNodes_iff body body', and_assoc]

theorem sameNodes_iff (as bs : List Node) : sameNodes as bs = true ↔ as = bs := by
  match as, bs with
  | [], [] => simp [sameNodes]
  | [], _ :: _ => simp [sameNodes]
  | _ :: _, [] => simp [sameNodes]
  | a :: as, b :: bs => simp [sameNodes, a.same_iff b, sameNodes_iff as bs]

end

instance : DecidableEq Node := fun a b => decidable_of_iff _ (a.same_iff b)

instance : DecidableEq Block := fun a b => decidable_of_iff _ (a.same_iff b)

end ScriptSyntax
