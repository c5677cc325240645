/-
  The programs that show what the language can do.
-/
namespace QubitBasic

/-- A program with its title. -/
structure Demo where
  title : String
  lines : List String

namespace Demo

/-- The source of a demonstration. -/
def source (demo : Demo) : String := "\n".intercalate demo.lines

/-- A fair coin. -/
def coinFlip : Demo where
  title := "Quantum Coin Flip"
  lines :=
    ["10 REM Superposition gives a fair coin",
      "20 QINIT 1",
      "30 HADAMARD 0",
      "40 MEASURE 0",
      "50 IF QRESULT = 0 THEN PRINT \"Heads!\"",
      "60 IF QRESULT = 1 THEN PRINT \"Tails!\"",
      "70 END"]

/-- Two qubits that always agree. -/
def bellState : Demo where
  title := "Bell State"
  lines :=
    ["10 REM Entangled pair: both qubits always agree",
      "20 QINIT 2",
      "30 HADAMARD 0",
      "40 CNOT 0,1",
      "50 MEASURE 0",
      "60 LET A = QRESULT",
      "70 MEASURE 1",
      "80 PRINT \"Qubit 0: \"; A; \", Qubit 1: \"; QRESULT",
      "90 END"]

/-- Three random bits. -/
def randomNumber : Demo where
  title := "Quantum Random Number (0-7)"
  lines :=
    ["10 QINIT 3",
      "20 HADAMARD 0",
      "30 HADAMARD 1",
      "40 HADAMARD 2",
      "50 MEASURE 0",
      "60 LET B0 = QRESULT",
      "70 MEASURE 1",
      "80 LET B1 = QRESULT",
      "90 MEASURE 2",
      "100 LET B2 = QRESULT",
      "110 PRINT \"Random number: \"; B2 * 4 + B1 * 2 + B0",
      "120 END"]

/-- One query to a balanced function. -/
def deutsch : Demo where
  title := "Deutsch Algorithm (balanced oracle)"
  lines :=
    ["10 REM One query decides constant vs balanced",
      "20 QINIT 2",
      "30 QNOT 1",
      "40 HADAMARD 0",
      "50 HADAMARD 1",
      "60 REM Oracle f(x) = x",
      "70 CNOT 0,1",
      "80 HADAMARD 0",
      "90 MEASURE 0",
      "100 IF QRESULT = 1 THEN GOTO 130",
      "110 PRINT \"f is constant\"",
      "120 END",
      "130 PRINT \"f is balanced\"",
      "140 END"]

/-- All demonstrations in the order they are shown. -/
def all : List Demo := [coinFlip, bellState, randomNumber, deutsch]

/-- The program whose measurements are counted. -/
def bellPair : String :=
  "10 QINIT 2\n20 HADAMARD 0\n30 CNOT 0,1\n40 MEASURE 0\n50 MEASURE 1"

end Demo

end QubitBasic
