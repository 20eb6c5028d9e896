/-!
# Programs to measure with

Sources that between them use every statement, operator and special function of the language. Two
of them take a size.
-/

namespace Symphony.Workload

/-- Lines, each with its line feed. -/
def source (lines : List String) : String :=
  String.join (lines.map (· ++ "\n"))

/-- Fills an array again and again, with a branch of every kind in each round. -/
def loopSource (rounds : Int) : String :=
  source [
    "program loop;",
    "int arr[16], i, total;",
    "",
    "i = 0;",
    "total = 0;",
    "while (i < " ++ toString rounds ++ ") \x7b",
    "  arr[i mod 16] = i * 2 + 1;",
    "  total = total + arr[i mod 16];",
    "  if (total > 1000000) \x7b",
    "    total = total - 1;",
    "  \x7d elseif (total < 0) \x7b",
    "    total = 0;",
    "  \x7d else \x7b",
    "    total = total + 0;",
    "  \x7d",
    "  ++i;",
    "\x7d",
    "println(total);"
  ]

/-- A function that calls itself twice, with arithmetic before the calls. -/
def recursionSource (depth : Int) : String :=
  source [
    "program recursion;",
    "fun int fib(int n) \x7b",
    "  int r, a, b, c;",
    "  a = n * 2 + 1;",
    "  b = a - n mod 3;",
    "  c = a + b * 2 - 1;",
    "  if (n <= 1) \x7b",
    "    r = n + c - c;",
    "  \x7d else \x7b",
    "    r = fib(n - 1) + fib(n - 2);",
    "  \x7d",
    "  return r;",
    "\x7d",
    "println(fib(" ++ toString depth ++ "));"
  ]

/-- One program that uses everything. It reads one line of input. -/
def largeSource : String :=
  source [
    "program large;",
    "int arr[8], a, b, c;",
    "dec darr[4], d;",
    "str s;",
    "char ch;",
    "bool flag;",
    "fun void noop() \x7b",
    "  println(\"noop\");",
    "\x7d",
    "fun void shout(str msg, int times) \x7b",
    "  int i;",
    "  i = 0;",
    "  while (i < times) \x7b",
    "    print(msg);",
    "    ++i;",
    "    if (i >= times) \x7b",
    "      break;",
    "    \x7d",
    "  \x7d",
    "\x7d",
    "fun dec poly(dec x, dec y, dec z) \x7b",
    "  dec r;",
    "  r = x * y + z - 1.0 / 2.0;",
    "  return r;",
    "\x7d",
    "fun int fact(int n) \x7b",
    "  int r;",
    "  if (n equals 0 or n equals 1) \x7b",
    "    r = 1;",
    "  \x7d elseif (n equals 2) \x7b",
    "    r = 2;",
    "  \x7d else \x7b",
    "    r = n * fact(n - 1);",
    "  \x7d",
    "  return r;",
    "\x7d",
    "a = 3;",
    "b = 4;",
    "c = a + b - 1 * 2 mod 3;",
    "d = 2.5 ** 2.0 / 1.5;",
    "s = \"hello\";",
    "ch = 'Z';",
    "flag = true and false or not false;",
    "flag = true equals false equals flag;",
    "arr[0] = 5;",
    "arr[1] = 7;",
    "arr[2] = arr[0] + arr[1];",
    "darr[0] = 1.5;",
    "darr[1] = darr[0] * 2.0;",
    "a = fact(5);",
    "noop();",
    "shout(\"hi\", 2);",
    "d = poly(1.0, 2.0, 3.0);",
    "println(a);",
    "println(d);",
    "println(flag);",
    "println(s);",
    "println(length(s));",
    "println(to_str(a));",
    "println(sqrt(16.0));",
    "println(log(2.718281828));",
    "println(floor(3.9));",
    "println(ceil(3.1));",
    "println(get(s, 0));",
    "copy(s, \"copied\");",
    "d = random();",
    "A(); B(); C();",
    "D(); E();",
    "F(); G();",
    "little_star();",
    "if (a > 0 and b <= 100 and c >= 0 and a < 1000) \x7b",
    "  println(+a);",
    "  println(-b);",
    "\x7d else \x7b",
    "  println(0);",
    "\x7d",
    "--b;",
    "while (b > 0 and b < 100) \x7b",
    "  --b;",
    "\x7d",
    "s = input();",
    "println(s);"
  ]

/-- Prints a one. -/
def printSource : String :=
  "program print_one; println(1);"

/-- Divides by zero. -/
def divisionSource : String :=
  "program division; println(1 / 0);"

/-- Reads a line of input. -/
def inputSource : String :=
  "program reading; println(input());"

end Symphony.Workload
