import CallTrace.Preset

/-! # The built-in presets

* `catalog`: every preset, grouped by kind of recursion.
* `Preset.all`: the presets in catalog order, with the id of their group.
* `Preset.find?`: a preset by its id, or by the id of its group, a colon and its id.
-/

namespace CallTrace
set_option autoImplicit false

def programText (lines : List String) : String := "\n".intercalate lines

def Catalog.factorial : Preset where
  id := "factorial"
  name := "Factorial"
  shape := .number
  defaultInput := "5"
  params := ["n"]
  extraArgs := []
  setup := []
  rootFunction := "factorial"
  code := programText [
    "int factorial(int n) \x7b",
    "    if (n <= 1) return 1;",
    "    return n * factorial(n - 1);",
    "\x7d",
    "",
    "// Driver",
    "int n = 5;",
    "factorial(n);"]

def Catalog.sumArray : Preset where
  id := "sum_array"
  name := "Sum of Array"
  shape := .array
  defaultInput := "1, 2, 3, 4, 5"
  params := ["arr", "n"]
  extraArgs := []
  setup := []
  rootFunction := "sumArray"
  code := programText [
    "int sumArray(vector<int> arr, int n) \x7b",
    "    if (n <= 0) return 0;",
    "    return sumArray(arr, n - 1) + arr[n - 1];",
    "\x7d",
    "",
    "// Driver",
    "vector<int> arr = \x7b1, 2, 3, 4, 5\x7d;",
    "sumArray(arr, arr.size());"]

def Catalog.reverseString : Preset where
  id := "reverse_string"
  name := "Reverse String"
  shape := .str
  defaultInput := "\"hello\""
  params := ["s"]
  extraArgs := []
  setup := []
  rootFunction := "reverseString"
  code := programText [
    "string reverseString(string s) \x7b",
    "    if (s.length() == 0) return \"\";",
    "    return reverseString(s.substr(1)) + s[0];",
    "\x7d",
    "",
    "// Driver",
    "string s = \"hello\";",
    "reverseString(s);"]

def Catalog.fibonacci : Preset where
  id := "fibonacci"
  name := "Fibonacci Number"
  shape := .number
  defaultInput := "5"
  params := ["n"]
  extraArgs := []
  setup := []
  rootFunction := "fib"
  code := programText [
    "int fib(int n) \x7b",
    "    if (n <= 1) return n;",
    "    return fib(n - 1) + fib(n - 2);",
    "\x7d",
    "",
    "// Driver",
    "int n = 5;",
    "fib(n);"]

def Catalog.mergeSort : Preset where
  id := "merge_sort"
  name := "Merge Sort (Divide & Conquer)"
  shape := .array
  defaultInput := "38, 27, 43, 3, 9, 82, 10"
  params := ["arr"]
  extraArgs := ["0", "arr.size() - 1"]
  setup := []
  rootFunction := "mergeSort"
  code := programText [
    "void merge(vector<int>& arr, int l, int m, int r) \x7b",
    "    // Merge logic simplified for visualization focus",
    "    // In actual C++, this would be complex.",
    "    // Here we focus on the call structure.",
    "\x7d",
    "",
    "void mergeSort(vector<int>& arr, int l, int r) \x7b",
    "    if (l >= r) return;",
    "    int m = l + (r - l) / 2;",
    "    mergeSort(arr, l, m);",
    "    mergeSort(arr, m + 1, r);",
    "    merge(arr, l, m, r);",
    "\x7d",
    "",
    "// Driver",
    "vector<int> arr = \x7b38, 27, 43, 3, 9, 82, 10\x7d;",
    "mergeSort(arr, 0, arr.size() - 1);"]

def Catalog.permutations : Preset where
  id := "permutations"
  name := "Permutations"
  shape := .array
  defaultInput := "1, 2, 3"
  params := ["nums"]
  extraArgs := ["\x7b\x7d", "visited"]
  setup := ["vector<bool> visited(nums.size(), false);"]
  rootFunction := "permute"
  code := programText [
    "void permute(vector<int> nums, vector<int> curr, vector<bool> visited) \x7b",
    "    if (curr.size() == nums.size()) \x7b",
    "        cout << \"Found: \" << curr;",
    "        return;",
    "    \x7d",
    "",
    "    for (int i = 0; i < nums.size(); i++) \x7b",
    "        if (visited[i]) continue;",
    "",
    "        visited[i] = true;",
    "        curr.push_back(nums[i]);",
    "",
    "        permute(nums, curr, visited);",
    "",
    "        visited[i] = false;",
    "        curr.pop_back();",
    "    \x7d",
    "\x7d",
    "",
    "// Driver",
    "vector<int> nums = \x7b1, 2, 3\x7d;",
    "vector<bool> visited = \x7bfalse, false, false\x7d;",
    "permute(nums, \x7b\x7d, visited);"]

def Catalog.subsets : Preset where
  id := "subsets"
  name := "Subsets"
  shape := .array
  defaultInput := "1, 2, 3"
  params := ["nums"]
  extraArgs := ["\x7b\x7d", "0"]
  setup := []
  rootFunction := "subsets"
  code := programText [
    "void subsets(vector<int> nums, vector<int> curr, int index) \x7b",
    "    cout << \"Subset: \" << curr;",
    "",
    "    for (int i = index; i < nums.size(); i++) \x7b",
    "        curr.push_back(nums[i]);",
    "        subsets(nums, curr, i + 1);",
    "        curr.pop_back();",
    "    \x7d",
    "\x7d",
    "",
    "// Driver",
    "vector<int> nums = \x7b1, 2, 3\x7d;",
    "subsets(nums, \x7b\x7d, 0);"]

def Catalog.tailFactorial : Preset where
  id := "tail_factorial"
  name := "Tail Recursive Factorial"
  shape := .number
  defaultInput := "5"
  params := ["n"]
  extraArgs := ["1"]
  setup := []
  rootFunction := "tailFactorial"
  code := programText [
    "int tailFactorial(int n, int accumulator) \x7b",
    "    if (n == 0) return accumulator;",
    "    return tailFactorial(n - 1, n * accumulator);",
    "\x7d",
    "",
    "// Driver",
    "int n = 5;",
    "tailFactorial(n, 1);"]

def Catalog.evenOdd : Preset where
  id := "even_odd"
  name := "Even / Odd"
  shape := .number
  defaultInput := "5"
  params := ["n"]
  extraArgs := []
  setup := []
  rootFunction := "isEven"
  code := programText [
    "bool isEven(int n);",
    "bool isOdd(int n);",
    "",
    "bool isEven(int n) \x7b",
    "    if (n == 0) return true;",
    "    return isOdd(n - 1);",
    "\x7d",
    "",
    "bool isOdd(int n) \x7b",
    "    if (n == 0) return false;",
    "    return isEven(n - 1);",
    "\x7d",
    "",
    "// Driver",
    "int n = 5;",
    "isEven(n);"]

def Catalog.ackermann : Preset where
  id := "ackermann"
  name := "Ackermann Function"
  shape := .multiNumber
  defaultInput := "2, 1"
  params := ["m", "n"]
  extraArgs := []
  setup := []
  rootFunction := "ackermann"
  code := programText [
    "int ackermann(int m, int n) \x7b",
    "    if (m == 0) return n + 1;",
    "    if (m > 0 && n == 0) return ackermann(m - 1, 1);",
    "    return ackermann(m - 1, ackermann(m, n - 1));",
    "\x7d",
    "",
    "// Driver",
    "int m = 2;",
    "int n = 1;",
    "ackermann(m, n);"]

def Catalog.playground : Preset where
  id := "playground"
  name := "Playground"
  shape := .none
  defaultInput := ""
  params := []
  extraArgs := []
  setup := []
  rootFunction := "solve"
  code := programText [
    "// Write your recursive function here",
    "void solve(int n) \x7b",
    "    if (n <= 0) return;",
    "    cout << \"Step: \" << n;",
    "    solve(n - 1);",
    "\x7d",
    "",
    "// Driver",
    "// Call your function here with any arguments",
    "solve(3);"]

def catalog : List Category := [
  { id := "linear"
    name := "Linear Recursion"
    description := "A function makes exactly one recursive call. The stack grows linearly with input size."
    presets := [Catalog.factorial, Catalog.sumArray, Catalog.reverseString] },
  { id := "tree"
    name := "Tree Recursion"
    description := "A function makes multiple recursive calls. The execution visualizes as a branching tree."
    presets := [Catalog.fibonacci, Catalog.mergeSort] },
  { id := "backtracking"
    name := "Backtracking"
    description := "Explores all potential solutions by building candidates and abandoning valid ones (backtracking)."
    presets := [Catalog.permutations, Catalog.subsets] },
  { id := "tail"
    name := "Tail Recursion"
    description := "The recursive call is the final action. Modern compilers can optimize this to a loop."
    presets := [Catalog.tailFactorial] },
  { id := "indirect"
    name := "Indirect Recursion"
    description := "Functions call each other in a cycle (A calls B, B calls A)."
    presets := [Catalog.evenOdd] },
  { id := "nested"
    name := "Nested Recursion"
    description := "A recursive function passes a recursive call to itself as an argument."
    presets := [Catalog.ackermann] },
  { id := "custom"
    name := "My Code"
    description := "Write your own recursive function and driver code here. The visualizer will run exactly what you write."
    presets := [Catalog.playground] }]

namespace Preset

def all : List (String × Preset) :=
  catalog.flatMap fun c => c.presets.map fun p => (c.id, p)

def find? (id : String) : Option Preset :=
  match splitAtMarker [':'] id.toList with
  | some (category, rest) =>
    (all.find? fun (c, p) => c == String.ofList category && p.id == String.ofList rest).map (·.2)
  | none => (all.find? fun (_, p) => p.id == id).map (·.2)

end Preset

end CallTrace
