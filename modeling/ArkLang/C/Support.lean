import ArkLang.C.Code

/-!
# The support library

The C that every lowered program is linked with: checked arithmetic, positions counted from one,
faults, memory that lives as long as the program, and the procedures of the language itself. Its
text does not depend on the program.
-/

namespace ArkLang

namespace C

namespace Support

/-- Lines with a blank line between paragraphs. -/
def paragraphs (ps : List Lines) : Lines :=
  [""].intercalate ps

/-- A call that ends the program. -/
def fault (what : String) : String :=
  "ark_rt_fault(\"" ++ what ++ "\");"

/-- A condition that ends the program. -/
def faultIf (cond what : String) : String :=
  "if (" ++ cond ++ ") " ++ fault what

def declarations : List Lines := [
  ["#ifndef ARK_RUNTIME_H", "#define ARK_RUNTIME_H"],
  ["#include <stdbool.h>", "#include <stddef.h>", "#include <stdint.h>", "#include <stdlib.h>",
   "#include <string.h>"],
  ["typedef const char *ark_str;"],
  ["/* process lifetime */", "void ark_rt_init(void);", "void ark_rt_fini(void);",
   "_Noreturn void ark_rt_fault(const char *what);",
   "_Noreturn void ark_rt_missing_return(const char *proc);"],
  ["/* memory */", "void *ark_rt_alloc(size_t size);",
   "void *ark_rt_realloc(void *ptr, size_t size);", "void *ark_rt_arena_alloc(size_t size);"],
  ["/* checked arithmetic */", "int64_t ark_rt_add(int64_t a, int64_t b);",
   "int64_t ark_rt_sub(int64_t a, int64_t b);", "int64_t ark_rt_mul(int64_t a, int64_t b);",
   "int64_t ark_rt_div(int64_t a, int64_t b);", "int64_t ark_rt_rem(int64_t a, int64_t b);",
   "int64_t ark_rt_shl(int64_t a, int64_t b);", "int64_t ark_rt_shr(int64_t a, int64_t b);",
   "int64_t ark_rt_neg(int64_t a);", "int64_t ark_rt_post_inc(int64_t *place);",
   "int64_t ark_rt_post_dec(int64_t *place);", "double ark_rt_fdiv(double a, double b);",
   "double ark_rt_fmod(double a, double b);", "int64_t ark_rt_f2i(double v);",
   "int64_t ark_rt_index(int64_t i, int64_t len);"],
  ["/* strings */", "ark_str ark_rt_concat(ark_str a, ark_str b);",
   "ark_str ark_rt_int_str(int64_t v);", "ark_str ark_rt_float_str(double v);",
   "ark_str ark_rt_bool_str(bool v);", "int ark_rt_str_cmp(ark_str a, ark_str b);"],
  ["/* builtins */", "void ark_print_int(int64_t v);", "void ark_print_float(double v);",
   "void ark_print_str(ark_str v);", "void ark_print_bool(bool v);",
   "int64_t ark_int_of_str(ark_str s);", "double ark_float_of_str(ark_str s);",
   "bool ark_bool_of_str(ark_str s);", "int64_t ark_str_len(ark_str s);",
   "double ark_sqrt(double v);", "double ark_pow(double a, double b);",
   "int64_t ark_abs_int(int64_t v);", "double ark_abs_float(double v);",
   "ark_str ark_input(ark_str prompt);"],
  ["#endif"]]

/-- Memory. Texts and environments live until the program ends. -/
def memory : List Lines := [
  blockThen "typedef union ark_rt_block"
    ["union ark_rt_block *next;", "max_align_t align_;"]
    " ark_rt_block;",
  ["static ark_rt_block *ark_rt_blocks = NULL;"],
  block "void ark_rt_init(void)"
    ["ark_rt_blocks = NULL;"],
  block "void ark_rt_fini(void)"
    (block "while (ark_rt_blocks != NULL)"
       ["ark_rt_block *next = ark_rt_blocks->next;", "free(ark_rt_blocks);",
        "ark_rt_blocks = next;"] ++
     ["fflush(stdout);"]),
  block "void *ark_rt_alloc(size_t size)"
    ["void *p = malloc(size == 0 ? 1 : size);", faultIf "p == NULL" "out of memory", "return p;"],
  block "void *ark_rt_realloc(void *ptr, size_t size)"
    ["void *p = realloc(ptr, size == 0 ? 1 : size);", faultIf "p == NULL" "out of memory",
     "return p;"],
  block "void *ark_rt_arena_alloc(size_t size)"
    ["ark_rt_block *b = ark_rt_alloc(sizeof *b + size);", "b->next = ark_rt_blocks;",
     "ark_rt_blocks = b;", "return b + 1;"]]

/-- The ends of a program that fails. -/
def faults : List Lines := [
  block "_Noreturn void ark_rt_fault(const char *what)"
    ["fflush(stdout);", "fprintf(stderr, \"ark: runtime fault: %s\\n\", what);",
     "_Exit(EXIT_FAILURE);"],
  block "_Noreturn void ark_rt_missing_return(const char *proc)"
    ["fflush(stdout);",
     "fprintf(stderr, \"ark: runtime fault: `%s` finished without returning a value\\n\", proc);",
     "_Exit(EXIT_FAILURE);"]]

/-- Checked arithmetic, and positions counted from one. -/
def arithmetic : List Lines := [
  block "int64_t ark_rt_add(int64_t a, int64_t b)"
    [faultIf "(b > 0 && a > INT64_MAX - b) || (b < 0 && a < INT64_MIN - b)" "integer overflow",
     "return a + b;"],
  block "int64_t ark_rt_sub(int64_t a, int64_t b)"
    [faultIf "(b < 0 && a > INT64_MAX + b) || (b > 0 && a < INT64_MIN + b)" "integer overflow",
     "return a - b;"],
  block "int64_t ark_rt_mul(int64_t a, int64_t b)"
    (branches [
       ("if (a > 0)",
         branches [
           ("if (b > 0)",
             [faultIf "a > INT64_MAX / b" "integer overflow"]),
           ("else if (b < INT64_MIN / a)",
             [fault "integer overflow"])]),
       ("else if (b > 0)",
         [faultIf "a < INT64_MIN / b" "integer overflow"]),
       ("else if (a != 0 && b < INT64_MAX / a)",
         [fault "integer overflow"])] ++
     ["return a * b;"]),
  block "int64_t ark_rt_div(int64_t a, int64_t b)"
    [faultIf "b == 0" "division by zero", faultIf "a == INT64_MIN && b == -1" "integer overflow",
     "return a / b;"],
  block "int64_t ark_rt_rem(int64_t a, int64_t b)"
    [faultIf "b == 0" "division by zero", "if (b == -1) return 0;", "return a % b;"],
  block "int64_t ark_rt_shl(int64_t a, int64_t b)"
    [faultIf "b < 0 || b > 63" "shift amount out of range", "return (int64_t)((uint64_t)a << b);"],
  block "int64_t ark_rt_shr(int64_t a, int64_t b)"
    [faultIf "b < 0 || b > 63" "shift amount out of range", "return a >> b;"],
  block "int64_t ark_rt_neg(int64_t a)"
    [faultIf "a == INT64_MIN" "integer overflow", "return -a;"],
  block "int64_t ark_rt_post_inc(int64_t *place)"
    ["int64_t old = *place;", "*place = ark_rt_add(old, 1);", "return old;"],
  block "int64_t ark_rt_post_dec(int64_t *place)"
    ["int64_t old = *place;", "*place = ark_rt_sub(old, 1);", "return old;"],
  block "double ark_rt_fdiv(double a, double b)"
    [faultIf "b == 0.0" "division by zero", "return a / b;"],
  block "double ark_rt_fmod(double a, double b)"
    [faultIf "b == 0.0" "division by zero", "return fmod(a, b);"],
  block "int64_t ark_rt_f2i(double v)"
    (block "if (!(v >= -9223372036854775808.0 && v < 9223372036854775808.0))"
       [fault "float to int conversion out of range"] ++
     ["return (int64_t)v;"]),
  block "int64_t ark_rt_index(int64_t i, int64_t len)"
    (block "if (i < 1 || i > len)"
       ["fflush(stdout);",
        "fprintf(stderr, \"ark: runtime fault: index %lld out of range 1..%lld\\n\", " ++
          "(long long)i, (long long)len);",
        "_Exit(EXIT_FAILURE);"] ++
     ["return i - 1;"])]

def strings : List Lines := [
  block "static ark_str ark_rt_nonnull(ark_str s)"
    ["return s == NULL ? \"\" : s;"],
  block "ark_str ark_rt_concat(ark_str a, ark_str b)"
    ["a = ark_rt_nonnull(a);", "b = ark_rt_nonnull(b);", "size_t la = strlen(a);",
     "size_t lb = strlen(b);", "char *s = ark_rt_arena_alloc(la + lb + 1);", "memcpy(s, a, la);",
     "memcpy(s + la, b, lb);", "s[la + lb] = '\\0';", "return s;"],
  block "ark_str ark_rt_int_str(int64_t v)"
    ["char *s = ark_rt_arena_alloc(24);", "snprintf(s, 24, \"%lld\", (long long)v);", "return s;"],
  ["/* Shortest digits that read back as the same double, written positionally;",
   "   integral values keep a trailing \".0\". */"] ++
  block "ark_str ark_rt_float_str(double v)"
    (["char *s = ark_rt_arena_alloc(400);"] ++
     block "if (!isfinite(v))"
       ["snprintf(s, 400, \"%g\", v);", "return s;"] ++
     ["char sci[40];", "int prec;"] ++
     block "for (prec = 1; prec < 17; prec++)"
       ["snprintf(sci, sizeof sci, \"%.*e\", prec - 1, v);",
        "if (strtod(sci, NULL) == v) break;"] ++
     ["snprintf(sci, sizeof sci, \"%.*e\", prec - 1, v);",
      "int decimals = prec - 1 - atoi(strchr(sci, 'e') + 1);", "if (decimals < 0) decimals = 0;",
      "snprintf(s, 400, \"%.*f\", decimals, v);", "char *dot = strchr(s, '.');"] ++
     branches [
       ("if (dot == NULL)",
         ["strcat(s, \".0\");"]),
       ("else",
         ["size_t n = strlen(s);",
          "while (n > (size_t)(dot - s) + 2 && s[n - 1] == '0') s[--n] = '\\0';"])] ++
     ["return s;"]),
  block "ark_str ark_rt_bool_str(bool v)"
    ["return v ? \"true\" : \"false\";"],
  block "int ark_rt_str_cmp(ark_str a, ark_str b)"
    ["return strcmp(ark_rt_nonnull(a), ark_rt_nonnull(b));"]]

/-- The procedures of the language itself. -/
def builtins : List Lines := [
  block "void ark_print_int(int64_t v)"
    ["printf(\"%lld\\n\", (long long)v);"],
  block "void ark_print_float(double v)"
    ["printf(\"%s\\n\", ark_rt_float_str(v));"],
  block "void ark_print_str(ark_str v)"
    ["printf(\"%s\\n\", ark_rt_nonnull(v));"],
  block "void ark_print_bool(bool v)"
    ["printf(\"%s\\n\", v ? \"true\" : \"false\");"],
  block "int64_t ark_int_of_str(ark_str s)"
    ["char *end = NULL;", "s = ark_rt_nonnull(s);", "errno = 0;",
     "long long v = strtoll(s, &end, 10);",
     faultIf "end == s || *end != '\\0' || errno == ERANGE" "string is not a valid int",
     "return (int64_t)v;"],
  block "double ark_float_of_str(ark_str s)"
    ["char *end = NULL;", "s = ark_rt_nonnull(s);", "double v = strtod(s, &end);",
     faultIf "end == s || *end != '\\0'" "string is not a valid float", "return v;"],
  block "bool ark_bool_of_str(ark_str s)"
    ["s = ark_rt_nonnull(s);", "return s[0] != '\\0' && strcmp(s, \"false\") != 0;"],
  block "int64_t ark_str_len(ark_str s)"
    ["return (int64_t)strlen(ark_rt_nonnull(s));"],
  block "double ark_sqrt(double v)"
    ["return sqrt(v);"],
  block "double ark_pow(double a, double b)"
    ["return pow(a, b);"],
  block "int64_t ark_abs_int(int64_t v)"
    [faultIf "v == INT64_MIN" "integer overflow", "return v < 0 ? -v : v;"],
  block "double ark_abs_float(double v)"
    ["return fabs(v);"],
  block "ark_str ark_input(ark_str prompt)"
    (block "if (prompt != NULL)"
       ["printf(\"%s\", prompt);"] ++
     ["fflush(stdout);", "size_t cap = 64;", "size_t len = 0;", "char *buf = ark_rt_alloc(cap);",
      "int c;"] ++
     block "while ((c = getchar()) != EOF && c != '\\n')"
       (block "if (len + 1 == cap)"
          ["cap *= 2;", "buf = ark_rt_realloc(buf, cap);"] ++
        ["buf[len++] = (char)c;"]) ++
     ["if (len > 0 && buf[len - 1] == '\\r') len--;", "char *s = ark_rt_arena_alloc(len + 1);",
      "memcpy(s, buf, len);", "s[len] = '\\0';", "free(buf);", "return s;"])]

def header : Lines :=
  paragraphs declarations

def source : Lines :=
  paragraphs ([["#include \"ark_runtime.h\""],
    ["#include <errno.h>", "#include <math.h>", "#include <stdio.h>"]] ++
    memory ++ faults ++ arithmetic ++ strings ++ builtins)

end Support

end C

end ArkLang
